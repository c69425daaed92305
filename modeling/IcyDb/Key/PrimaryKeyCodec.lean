import IcyDb.Key.PrimaryKey
import IcyDb.Control.Except
import Mathlib.Data.List.Forall2

/-!
# The compact primary-key codec is a bijection that keeps order

The encoder of `db::key_taxonomy` cannot fail on an admitted key, so its output
is described here by total layout functions (`PrimaryKeyComponent.encoded`,
`CompositePrimaryKeyValue.encoded`, `PrimaryKeyValue.encoded`), each tied to
the encoder by an equation.  Over the layouts we prove

* the decoder inverts the encoder, also with trailing bytes after a scalar
  component, which is how the composite decoder meets them;
* whatever the decoder accepts is the layout of what it returns, so the
  accepted byte strings are exactly the encoder's images;
* on keys of one shape the byte order of the layouts is the key order.
-/

namespace IcyDb

open ByteOrder

namespace PrimaryKeyComponent

/-- The payload `encode_primary_key_payload` writes for an admitted component. -/
def payload : PrimaryKeyComponent → List UInt8
  | nat64 value => beBytes 8 value.toNat
  | int64 value => encodeOrderedI64 value
  | nat128 value => beBytes 16 value.toNat
  | int128 value => encodeOrderedI128 value
  | timestamp value => encodeOrderedI64 value.millis
  | ulid value => value.bytes
  | principal value => UInt8.ofNat value.bytes.length :: value.bytes
  | subaccount value => value.bytes
  | account value => value.storedLayout
  | unit => []

/-- The bytes of one scalar component: its kind tag, then its payload. -/
def encoded (c : PrimaryKeyComponent) : List UInt8 := c.kind.tag :: c.payload

theorem kind_ne_composite (c : PrimaryKeyComponent) : c.kind ≠ .composite := by
  cases c <;> simp [kind]

theorem encodePrincipal_eq (p : Principal) :
    encodePrincipal p = .ok (UInt8.ofNat p.bytes.length :: p.bytes) := by
  have hb := p.bounded
  unfold principalMaxLength at hb
  rw [encodePrincipal, if_neg (by unfold principalMaxLength; omega), if_neg (by omega)]

theorem encodePrimaryKeyPayload_eq (c : PrimaryKeyComponent) :
    encodePrimaryKeyPayload c = .ok c.payload := by
  cases c with
  | principal p => exact encodePrincipal_eq p
  | account a => simp [encodePrimaryKeyPayload, Account.toStoredBytes_eq, payload]
  | _ => rfl

theorem encodePrimaryKeyComponent_eq (c : PrimaryKeyComponent) :
    encodePrimaryKeyComponent c = .ok c.encoded := by
  simp [encodePrimaryKeyComponent, encodePrimaryKeyPayload_eq, encoded]

/-- The payload of a fixed-width kind has that width. -/
theorem length_payload {c : PrimaryKeyComponent} {n : Nat} (h : c.kind.fixedPayloadLen = some n) :
    c.payload.length = n := by
  cases c <;> simp_all [kind, PrimaryKeyKind.fixedPayloadLen, payload, encodeOrderedI64,
    encodeOrderedI128, Ulid.length_eq, Subaccount.length_eq, Account.length_storedLayout]

/-- The decoder reads every admitted component back from its bytes. -/
theorem decodePrimaryKeyComponent_encoded (c : PrimaryKeyComponent) :
    decodePrimaryKeyComponent c.encoded = .ok c := by
  cases c with
  | principal p =>
    have hb := p.bounded
    have hmod : p.bytes.length % 256 = p.bytes.length :=
      Nat.mod_eq_of_lt (by unfold principalMaxLength at hb; omega)
    simp [decodePrimaryKeyComponent, encoded, kind, payload, PrimaryKeyKind.fixedPayloadLen,
      decodePrincipal, hmod, Nat.not_lt.mpr hb]
  | _ =>
    simp [decodePrimaryKeyComponent, encoded, kind, payload, PrimaryKeyKind.fixedPayloadLen,
      ofNat_beValue_beBytes, fixedPayload_of_length, Ulid.length_eq, Subaccount.length_eq,
      Account.length_storedLayout, Account.tryFromBytes_storedLayout]

theorem encoded_of_decodePrincipal {body : List UInt8} {c : PrimaryKeyComponent}
    (h : decodePrincipal body = .ok c) : c.kind = .principal ∧ c.payload = body := by
  match body, h with
  | len :: bytes, h =>
    simp only [decodePrincipal] at h
    split at h
    · cases h
    · split at h
      · rename_i hlen
        cases h
        simp [kind, payload, hlen]
      · cases h

/-- Whatever the decoder accepts is the encoding of what it returns. -/
theorem encoded_of_decodePrimaryKeyComponent {bytes : List UInt8} {c : PrimaryKeyComponent}
    (h : decodePrimaryKeyComponent bytes = .ok c) : c.encoded = bytes := by
  match bytes, h with
  | tag :: body, h =>
    simp only [decodePrimaryKeyComponent] at h
    split at h
    · cases h
    · rename_i k hk
      obtain rfl := PrimaryKeyKind.eq_of_fromTag hk
      split at h
      · cases h
      · rename_i hguard
        -- past the length guard, a fixed-width payload has its width
        have hfix : ∀ n, k.fixedPayloadLen = some n → body.length = n := by
          intro n hn
          simp only [hn, Option.any_some, bne_iff_ne, ne_eq, Decidable.not_not] at hguard
          exact hguard.symm
        cases k with
        | nat64 =>
          cases h
          simp only [encoded, kind, payload, beBytes_ofNat_beValue_of_length (hfix 8 rfl) rfl]
        | int64 =>
          cases h
          simp [encoded, kind, payload, encodeOrderedI64_decodeOrderedI64 (hfix 8 rfl)]
        | nat128 =>
          cases h
          simp only [encoded, kind, payload, beBytes_ofNat_beValue_of_length (hfix 16 rfl) rfl]
        | int128 =>
          cases h
          simp [encoded, kind, payload, encodeOrderedI128_decodeOrderedI128 (hfix 16 rfl)]
        | timestamp =>
          cases h
          simp [encoded, kind, payload, encodeOrderedI64_decodeOrderedI64 (hfix 8 rfl)]
        | ulid =>
          rw [fixedPayload_of_length (hfix 16 rfl)] at h
          cases h
          rfl
        | subaccount =>
          rw [fixedPayload_of_length (hfix 32 rfl)] at h
          cases h
          rfl
        | principal =>
          obtain ⟨hk, hp⟩ := encoded_of_decodePrincipal h
          rw [encoded, hk, hp]
        | account =>
          cases ha : Account.tryFromBytes body with
          | ok a =>
            simp only [ha] at h
            cases h
            simp [encoded, kind, payload, Account.storedLayout_of_tryFromBytes ha]
          | error e => simp [ha] at h
        | unit =>
          cases h
          simp [encoded, kind, payload, List.eq_nil_of_length_eq_zero (hfix 0 rfl)]
        | composite => cases h

/-- The splitter finds the end of an encoded component from its tag and, for
a principal, its length byte, whatever follows it. -/
theorem takeEncodedPrimaryKeyComponent_encoded (c : PrimaryKeyComponent) (rest : List UInt8) :
    takeEncodedPrimaryKeyComponent (c.encoded ++ rest) = .ok (c.encoded, rest) := by
  cases c with
  | principal p =>
    have hb := p.bounded
    have hmod : p.bytes.length % 256 = p.bytes.length :=
      Nat.mod_eq_of_lt (by unfold principalMaxLength at hb; omega)
    have htotal : 1 + 1 + p.bytes.length = p.bytes.length + 1 + 1 := by omega
    simp [takeEncodedPrimaryKeyComponent, encoded, kind, payload, hmod, Nat.not_lt.mpr hb,
      htotal]
  | ulid u =>
    simp [takeEncodedPrimaryKeyComponent, encoded, kind, payload, PrimaryKeyKind.fixedPayloadLen,
      u.length_eq, List.take_left', List.drop_left']
  | subaccount u =>
    simp [takeEncodedPrimaryKeyComponent, encoded, kind, payload, PrimaryKeyKind.fixedPayloadLen,
      u.length_eq, List.take_left', List.drop_left']
  | account a =>
    simp [takeEncodedPrimaryKeyComponent, encoded, kind, payload, PrimaryKeyKind.fixedPayloadLen,
      Nat.add_comm 1, Account.length_storedLayout, List.take_left', List.drop_left']
  | _ =>
    simp [takeEncodedPrimaryKeyComponent, encoded, kind, payload, PrimaryKeyKind.fixedPayloadLen]

/-- The splitter cuts its input into a front part and a rest and loses nothing. -/
theorem append_of_takeEncodedPrimaryKeyComponent {input bytes rest : List UInt8}
    (h : takeEncodedPrimaryKeyComponent input = .ok (bytes, rest)) : bytes ++ rest = input := by
  unfold takeEncodedPrimaryKeyComponent at h
  split at h
  · cases h
  · split at h
    · cases h
    · cases h
    · obtain ⟨total, -, hsplit⟩ := Except.bind'_eq_ok_iff.mp h
      split at hsplit
      · cases hsplit
      · cases hsplit
        exact List.take_append_drop _ _

end PrimaryKeyComponent

open PrimaryKeyComponent in
/-- The component loop reads back any list of non-`Unit` components. -/
theorem decodeCompositeComponents_encoded (cs : List PrimaryKeyComponent)
    (hu : ∀ c ∈ cs, c ≠ .unit) (index : Nat) (rest : List UInt8) :
    decodeCompositeComponents cs.length index ((cs.map encoded).flatten ++ rest) =
      .ok (cs, rest) := by
  induction cs generalizing index with
  | nil => rfl
  | cons c cs ih =>
    have hc : c ≠ .unit := hu c (List.mem_cons_self ..)
    have hcs : ∀ c ∈ cs, c ≠ .unit := fun c' hc' => hu c' (List.mem_cons_of_mem _ hc')
    simp only [List.length_cons, List.map_cons, List.flatten_cons, List.append_assoc,
      decodeCompositeComponents, takeEncodedPrimaryKeyComponent_encoded, Except.ok_bind,
      decodePrimaryKeyComponent_encoded, if_neg hc, ih hcs]
    rfl

open PrimaryKeyComponent in
/-- What the component loop accepts is a concatenation of encoded non-`Unit`
components, as many as it was asked for, followed by the tail it returns. -/
theorem decodeCompositeComponents_sound {count index : Nat} {input tail : List UInt8}
    {cs : List PrimaryKeyComponent}
    (h : decodeCompositeComponents count index input = .ok (cs, tail)) :
    (cs.map encoded).flatten ++ tail = input ∧ cs.length = count ∧ ∀ c ∈ cs, c ≠ .unit := by
  induction count generalizing index input cs with
  | zero =>
    cases h
    simp
  | succ count ih =>
    simp only [decodeCompositeComponents, Except.bind_eq_ok_iff] at h
    obtain ⟨⟨bytes, rest⟩, htake, h⟩ := h
    obtain ⟨value, hdecode, h⟩ := h
    split at h
    · cases h
    · rename_i hunit
      obtain ⟨⟨values, tl⟩, hloop, h⟩ := Except.bind_eq_ok_iff.mp h
      cases h
      obtain ⟨hflat, hlen, hvalues⟩ := ih hloop
      refine ⟨?_, by simp [hlen], ?_⟩
      · rw [List.map_cons, List.flatten_cons, List.append_assoc, hflat,
          encoded_of_decodePrimaryKeyComponent hdecode]
        exact append_of_takeEncodedPrimaryKeyComponent htake
      · intro c hc
        rcases List.mem_cons.mp hc with rfl | hc
        · exact hunit
        · exact hvalues c hc

namespace CompositePrimaryKeyValue

theorem tryFromComponents_components (v : CompositePrimaryKeyValue) :
    tryFromComponents v.components = .ok v := by
  have hu : PrimaryKeyComponent.unit ∉ v.components := fun h => v.no_unit _ h rfl
  have h2 := v.two_le
  have h4 := v.le_max
  rw [tryFromComponents, dif_neg (by omega), dif_neg (by omega), dif_neg hu]

theorem components_of_tryFromComponents {cs : List PrimaryKeyComponent}
    {v : CompositePrimaryKeyValue} (h : tryFromComponents cs = .ok v) : v.components = cs := by
  unfold tryFromComponents at h
  split at h
  · cases h
  · split at h
    · cases h
    · split at h
      · cases h
      · cases h
        rfl

/-- The bytes `encode_composite_primary_key_value` writes: the composite tag,
the component count, then the encoded components. -/
def encoded (v : CompositePrimaryKeyValue) : List UInt8 :=
  PrimaryKeyKind.composite.tag :: UInt8.ofNat v.components.length ::
    (v.components.map PrimaryKeyComponent.encoded).flatten

theorem encodeCompositePrimaryKeyValue_eq (v : CompositePrimaryKeyValue) :
    encodeCompositePrimaryKeyValue v = .ok v.encoded := by
  have henc : encodePrimaryKeyComponent = fun c => pure c.encoded :=
    funext PrimaryKeyComponent.encodePrimaryKeyComponent_eq
  simp [encodeCompositePrimaryKeyValue, henc, List.mapM_pure, encoded]

theorem decodeCompositePrimaryKeyValue_encoded (v : CompositePrimaryKeyValue) :
    decodeCompositePrimaryKeyValue v.encoded = .ok v := by
  have h2 := v.two_le
  have h4 := v.le_max
  unfold maxPrimaryKeyFields at h4
  have hcount : v.components.length % 256 = v.components.length := Nat.mod_eq_of_lt (by omega)
  have hloop := decodeCompositeComponents_encoded v.components v.no_unit 0 []
  rw [List.append_nil] at hloop
  simp [decodeCompositePrimaryKeyValue, encoded, hcount, maxPrimaryKeyFields, h2, h4, hloop,
    tryFromComponents_components]

/-- Whatever the composite decoder accepts is the encoding of what it returns. -/
theorem encoded_of_decodeCompositePrimaryKeyValue {bytes : List UInt8}
    {v : CompositePrimaryKeyValue} (h : decodeCompositePrimaryKeyValue bytes = .ok v) :
    v.encoded = bytes := by
  match bytes, h with
  | tag :: body, h =>
    simp only [decodeCompositePrimaryKeyValue] at h
    split at h
    · cases h
    · rename_i k hk
      obtain rfl := PrimaryKeyKind.eq_of_fromTag hk
      split at h
      · cases h
      · rename_i hcomposite
        obtain rfl : k = .composite := not_not.mp hcomposite
        match body, h with
        | count :: rest, h =>
          simp only at h
          split at h
          · cases h
          · obtain ⟨⟨cs, input⟩, hloop, h⟩ := Except.bind_eq_ok_iff.mp h
            obtain ⟨hflat, hlen, -⟩ := decodeCompositeComponents_sound hloop
            split at h
            · cases h
            · rename_i hinput
              obtain rfl : input = [] := not_not.mp hinput
              split at h
              · rename_i w htry
                cases h
                rw [encoded, components_of_tryFromComponents htry, hlen, UInt8.ofNat_toNat,
                  ← List.append_nil (List.flatten _), hflat]
              all_goals cases h

end CompositePrimaryKeyValue

namespace PrimaryKeyValue

/-- The bytes `EncodedPrimaryKey::encode` writes. -/
def encoded : PrimaryKeyValue → List UInt8
  | scalar c => c.encoded
  | composite v => v.encoded

theorem encode_eq (pk : PrimaryKeyValue) : EncodedPrimaryKey.encode pk = .ok pk.encoded := by
  cases pk with
  | scalar c => exact c.encodePrimaryKeyComponent_eq
  | composite v => exact v.encodeCompositePrimaryKeyValue_eq

end PrimaryKeyValue

namespace EncodedPrimaryKey

open PrimaryKeyValue

/-- `decode_bytes` dispatches on the leading kind tag. -/
theorem decodeBytes_eq {bytes : List UInt8} {k : PrimaryKeyKind}
    (h : primaryKeyKindFromBytes bytes = .ok k) :
    decodeBytes bytes =
      if k = .composite then (decodeCompositePrimaryKeyValue bytes).map .composite
      else (decodePrimaryKeyComponent bytes).map .scalar := by
  simp only [decodeBytes, h, Except.ok_bind]
  cases k <;> rfl

theorem primaryKeyKindFromBytes_encoded (pk : PrimaryKeyValue) :
    primaryKeyKindFromBytes pk.encoded = .ok pk.kind := by
  cases pk <;>
    simp [primaryKeyKindFromBytes, encoded, PrimaryKeyComponent.encoded,
      CompositePrimaryKeyValue.encoded, PrimaryKeyValue.kind]

/-- `decode_bytes` reads back every admitted primary key. -/
theorem decodeBytes_encoded (pk : PrimaryKeyValue) : decodeBytes pk.encoded = .ok pk := by
  rw [decodeBytes_eq (primaryKeyKindFromBytes_encoded pk)]
  cases pk with
  | scalar c =>
    simp [PrimaryKeyValue.kind, c.kind_ne_composite, encoded,
      PrimaryKeyComponent.decodePrimaryKeyComponent_encoded]
  | composite v =>
    simp [PrimaryKeyValue.kind, encoded, CompositePrimaryKeyValue.decodeCompositePrimaryKeyValue_encoded]

/-- Whatever `decode_bytes` accepts is the encoding of what it returns. -/
theorem encoded_of_decodeBytes {bytes : List UInt8} {pk : PrimaryKeyValue}
    (h : decodeBytes bytes = .ok pk) : pk.encoded = bytes := by
  cases hk : primaryKeyKindFromBytes bytes with
  | error e => simp [decodeBytes, hk] at h
  | ok k =>
    rw [decodeBytes_eq hk] at h
    split at h
    · obtain ⟨v, hv, rfl⟩ := Except.map_eq_ok_iff.mp h
      exact CompositePrimaryKeyValue.encoded_of_decodeCompositePrimaryKeyValue hv
    · obtain ⟨c, hc, rfl⟩ := Except.map_eq_ok_iff.mp h
      exact PrimaryKeyComponent.encoded_of_decodePrimaryKeyComponent hc

/-- `EncodedPrimaryKey::try_from` accepts a byte string exactly when the
encoder writes it for some primary key, and then keeps it unchanged. -/
theorem tryFrom_eq_ok_iff {bytes out : List UInt8} :
    tryFrom bytes = .ok out ↔ out = bytes ∧ ∃ pk, encode pk = .ok bytes := by
  constructor
  · intro h
    obtain ⟨pk, hpk, rfl⟩ := Except.map_eq_ok_iff.mp h
    exact ⟨rfl, pk, by rw [encode_eq, encoded_of_decodeBytes hpk]⟩
  · rintro ⟨rfl, pk, hpk⟩
    rw [encode_eq, Except.ok.injEq] at hpk
    subst hpk
    simp [tryFrom, decodeBytes_encoded]

end EncodedPrimaryKey

/-! ### Order -/

namespace PrimaryKeyComponent

/-- Only principals have no fixed payload width. -/
theorem eq_principal_of_fixedPayloadLen_none {c : PrimaryKeyComponent}
    (h : c.kind.fixedPayloadLen = none) : ∃ p, c = principal p := by
  cases c <;> simp_all [kind, PrimaryKeyKind.fixedPayloadLen]

/-- Payloads of one kind never make one a proper prefix of the other: fixed
widths agree, and principals of different lengths differ in their length
byte. -/
theorem payload_length_eq_or_diverge {a b : PrimaryKeyComponent} (h : a.kind = b.kind) :
    a.payload.length = b.payload.length ∨ Diverge a.payload b.payload := by
  cases hfix : a.kind.fixedPayloadLen with
  | some n => exact .inl (by rw [length_payload hfix, length_payload (h ▸ hfix)])
  | none =>
    obtain ⟨p, rfl⟩ := eq_principal_of_fixedPayloadLen_none hfix
    obtain ⟨q, rfl⟩ := eq_principal_of_fixedPayloadLen_none (h ▸ hfix)
    by_cases hpq : p.bytes.length = q.bytes.length
    · exact .inl (by simp [payload, hpq])
    · have hp := p.bounded
      have hq := q.bounded
      unfold principalMaxLength at hp hq
      have hbyte : UInt8.ofNat p.bytes.length ≠ UInt8.ofNat q.bytes.length := by
        intro heq
        have := congrArg UInt8.toNat heq
        simp only [toNat_ofNat_byte] at this
        omega
      exact .inr ⟨[], _, _, _, _, hbyte, rfl, rfl⟩

/-- On components of one kind, payload byte order is component order. -/
theorem compare_payload {a b : PrimaryKeyComponent} (h : a.kind = b.kind) :
    compare a.payload b.payload = a.cmp b := by
  cases a <;> cases b <;> simp only [kind, reduceCtorEq] at h
  case nat64.nat64 x y => exact compare_beBytes_toNat x y rfl
  case int64.int64 x y => exact compare_signFlipBytes x y rfl
  case nat128.nat128 x y => exact compare_beBytes_toNat x y rfl
  case int128.int128 x y => exact compare_signFlipBytes x y rfl
  case timestamp.timestamp x y => exact compare_signFlipBytes x.millis y.millis rfl
  case ulid.ulid x y => rfl
  case subaccount.subaccount x y => rfl
  case account.account x y => exact Account.compare_storedLayout x y
  case unit.unit => exact Std.compare_self
  case principal.principal x y =>
    have hx := x.bounded
    have hy := y.bounded
    unfold principalMaxLength at hx hy
    show compare (UInt8.ofNat x.bytes.length :: x.bytes) (UInt8.ofNat y.bytes.length :: y.bytes) =
      x.cmp y
    rw [Principal.cmp_eq, List.compare_cons_cons, compare_uint8,
      toNat_ofNat_byte, toNat_ofNat_byte, Nat.mod_eq_of_lt (by omega),
      Nat.mod_eq_of_lt (by omega)]

/-- An encoded component decides against one of the same kind before anything
that follows it is read. -/
theorem compare_encoded_append {a b : PrimaryKeyComponent} (h : a.kind = b.kind)
    (s t : List UInt8) :
    compare (a.encoded ++ s) (b.encoded ++ t) = (a.cmp b).then (compare s t) := by
  rw [encoded, encoded, h, List.cons_append, List.cons_append, List.compare_cons_cons,
    Std.compare_self, Ordering.eq_then,
    compare_append_of_length_eq_or_diverge (payload_length_eq_or_diverge h), compare_payload h]

end PrimaryKeyComponent

theorem CompositePrimaryKeyValue.compare_encoded {a b : CompositePrimaryKeyValue}
    (h : a.components.map PrimaryKeyComponent.kind = b.components.map PrimaryKeyComponent.kind) :
    compare a.encoded b.encoded = a.cmp b := by
  have hkinds : List.Forall₂ (fun x y => x.kind = y.kind) a.components b.components := by
    have : List.Forall₂ Eq (a.components.map PrimaryKeyComponent.kind)
        (b.components.map PrimaryKeyComponent.kind) := by
      rw [List.forall₂_eq_eq_eq]
      exact h
    exact List.forall₂_map_left_iff.mp (List.forall₂_map_right_iff.mp this)
  have hlen : a.components.length = b.components.length := hkinds.length_eq
  have hflat := compare_flatten_map PrimaryKeyComponent.encoded PrimaryKeyComponent.cmp _
    (fun _ _ hxy => PrimaryKeyComponent.compare_encoded_append hxy) hkinds [] []
  simp only [List.append_nil, Std.compare_self, Ordering.then_eq] at hflat
  rw [encoded, encoded, hlen, List.compare_cons_cons, List.compare_cons_cons,
    Std.compare_self, Std.compare_self, Ordering.eq_then, Ordering.eq_then,
    hflat, cmp]

/-- The shape of a primary key: its scalar kind, or the kind sequence of a
composite's components. -/
def PrimaryKeyValue.shape : PrimaryKeyValue → PrimaryKeyKind ⊕ List PrimaryKeyKind
  | scalar c => .inl c.kind
  | composite v => .inr (v.components.map PrimaryKeyComponent.kind)

/-- On primary keys of one shape, byte order of the encodings is key order. -/
theorem PrimaryKeyValue.compare_encoded {a b : PrimaryKeyValue} (h : a.shape = b.shape) :
    compare a.encoded b.encoded = a.cmp b := by
  cases a <;> cases b <;> simp only [shape, Sum.inl.injEq, Sum.inr.injEq, reduceCtorEq] at h
  case scalar.scalar x y =>
    simpa [encoded, cmp] using PrimaryKeyComponent.compare_encoded_append h [] []
  case composite.composite x y => exact CompositePrimaryKeyValue.compare_encoded h

end IcyDb
