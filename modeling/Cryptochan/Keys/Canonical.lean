import Cryptochan.Keys.EcHelper

/-!
# Cryptochan.Keys.Canonical — one string for each key

A key string is accepted exactly when it is the base58 encoding of a good key, and encoding the key
gives the string back (`keyStrings_canonical`).  The limits of 44 and 46 digits exclude no key:
32 bytes take at most 44 base58 digits and 33 bytes at most 46.
-/

namespace Cryptochan

open Radix

/-! ### What libsecp256k1 promises -/

/-- The order of the group. -/
def secp256k1Order : ℕ := 0xFFFFFFFFFFFFFFFFFFFFFFFFFFFFFFFEBAAEDCE6AF48A03BBFD25E8CD0364141

/-- The order of the field. -/
def secp256k1Field : ℕ := 0xFFFFFFFFFFFFFFFFFFFFFFFFFFFFFFFFFFFFFFFFFFFFFFFFFFFFFFFEFFFFFC2F

/-- A private key: 32 bytes with a value in `(0, n)`. -/
def IsPrivateKey (k : List UInt8) : Prop :=
  k.length = 32 ∧ 0 < beValue k ∧ beValue k < secp256k1Order

/-- A compressed point: the parity of `y` and 32 bytes for `x`, on the curve `y² = x³ + 7`. -/
def IsCompressedPoint (c : List UInt8) : Prop :=
  ∃ head x, c = head :: x ∧ x.length = 32 ∧ (head = 0x02 ∨ head = 0x03) ∧
    beValue x < secp256k1Field ∧ ∃ y < secp256k1Field,
      y ^ 2 % secp256k1Field = (beValue x ^ 3 + 7) % secp256k1Field ∧ y % 2 = head.toNat % 2

variable {P : Type}

/-- Secret keys are verified by their value, and a verified one has a public key. -/
structure Secp256k1.SecretLaws (ec : Secp256k1 P) : Prop where
  verify : ∀ k, k.length = 32 → (ec.ecSeckeyVerify k = true ↔
    0 < beValue k ∧ beValue k < secp256k1Order)
  create : ∀ k, k.length = 32 → ec.ecSeckeyVerify k = true → (ec.ecPubkeyCreate k).isSome

/-- Parsing accepts the compressed points, and serialisation inverts it. -/
structure Secp256k1.PublicLaws (ec : Secp256k1 P) : Prop where
  parse : ∀ c, c.length = 33 → ((ec.ecPubkeyParse c).isSome ↔ IsCompressedPoint c)
  serialize : ∀ c p, c.length = 33 → ec.ecPubkeyParse c = some p → ec.ecPubkeySerialize p = some c

/-! ### Digits needed -/

theorem length_base58Encode_privkey {k : List UInt8} (h : k.length = 32) :
    (base58Encode k).length ≤ 44 := by
  have hL : ∀ m < 33, 256 ^ m ≤ 58 ^ (m + 12) := by decide +kernel
  have := length_base58Encode_le k fun m hm => hL m (by omega)
  omega

theorem length_base58Encode_pubkey {c : List UInt8} (h : c.length = 33) :
    (base58Encode c).length ≤ 46 := by
  have hL : ∀ m < 34, 256 ^ m ≤ 58 ^ (m + 13) := by decide +kernel
  have := length_base58Encode_le c fun m hm => hL m (by omega)
  omega

section Base58

variable {b58 : Libbase58} (laws : b58.Laws)
include laws

/-! ### Through the buffer of `b58tobin` -/

theorem b58tobin_digits {cap dsz : ℕ} {s : CString} {buf : List UInt8}
    (h : b58.b58tobin cap s = some (buf, dsz)) :
    ∃ ds, base58Digits s = some ds ∧ buf = rightAligned cap (value 58 ds) ∧
      dsz = (Nat.digits 256 (value 58 ds)).length + zeros ds := by
  cases hs : base58Digits s with
  | none =>
    rw [laws.foreign cap s hs] at h
    exact absurd h (by simp)
  | some ds =>
    by_cases hfit : value 58 ds < 256 ^ cap
    · rw [laws.tobin cap s ds hs hfit, Option.some.injEq, Prod.mk.injEq] at h
      exact ⟨ds, rfl, h.1.symm, h.2.symm⟩
    · rw [laws.tooLarge cap s ds hs (Nat.le_of_not_lt hfit)] at h
      exact absurd h (by simp)

/-- What is read at the end of the buffer encodes to the string. -/
theorem b58tobin_read {cap dsz : ℕ} {s : CString} {buf : List UInt8}
    (h : b58.b58tobin cap s = some (buf, dsz)) (hfit : dsz ≤ cap) :
    ((buf.drop (cap - dsz)).take dsz).length = dsz ∧
      base58Encode ((buf.drop (cap - dsz)).take dsz) = s := by
  obtain ⟨ds, hs, rfl, hsz⟩ := b58tobin_digits laws h
  have hlen : (transcode 58 256 ds).length = dsz := by
    rw [transcode, length_numeral]
    omega
  have hdrop : (rightAligned cap (value 58 ds)).drop (cap - dsz) =
      digitBytes (transcode 58 256 ds) := by
    rw [rightAligned, digitBytes, ← List.map_drop,
      show cap - (Nat.digits 256 (value 58 ds)).length = cap - dsz + zeros ds by omega, drop_numeral,
      digitBytes, transcode]
  have htake : ((rightAligned cap (value 58 ds)).drop (cap - dsz)).take dsz =
      digitBytes (transcode 58 256 ds) := by
    rw [hdrop, List.take_of_length_le (by rw [digitBytes, List.length_map, hlen])]
  rw [htake]
  exact ⟨by rw [digitBytes, List.length_map, hlen], base58Encode_digitBytes hs⟩

/-- An encoding is decoded. -/
theorem b58tobin_encode (cap : ℕ) (data : List UInt8) (hfit : data.length ≤ cap) :
    ∃ buf, b58.b58tobin cap (base58Encode data) = some (buf, data.length) ∧
      (buf.drop (cap - data.length)).take data.length = data := by
  have hv : value 58 (transcode 256 58 (byteDigits data)) = beValue data := value_numeral
  have hlt : beValue data < 256 ^ cap :=
    (beValue_lt data).trans_le (Nat.pow_le_pow_right (by decide) hfit)
  have hsz : (Nat.digits 256 (beValue data)).length + zeros (transcode 256 58 (byteDigits data)) =
      data.length := by
    have hlen := length_eq (b := 256) (by decide) (byteDigits_lt data)
    rw [length_byteDigits] at hlen
    rw [transcode, zeros_numeral, beValue]
    omega
  have h := laws.tobin cap _ _ (base58Digits_encode data) (by rwa [hv])
  rw [hv, hsz] at h
  exact ⟨_, h, base58Encode_injective (b58tobin_read laws h hfit).2⟩

theorem b58encData_eq {malloc : ℕ → Bool} (hmalloc : ∀ n, malloc n = true) {data : List UInt8}
    {sz : ℕ} (hsz : data.length = sz) (hfit : (base58Encode data).length < sz * 2) :
    b58encData b58 malloc data sz = some (base58Encode data) := by
  rw [b58encData, List.take_of_length_le hsz.le, laws.enc _ _ hfit]
  simp [hmalloc]

/-! ### The decoders -/

variable {ec : Secp256k1 P}

theorem decodeB58Privkey_encode (secret : ec.SecretLaws) {k : List UInt8} (hk : IsPrivateKey k)
    (wantPubkey : Bool) :
    decodeB58Privkey b58 ec (base58Encode k) wantPubkey =
      .ok (k, if wantPubkey then ec.ecPubkeyCreate k else none) := by
  obtain ⟨hlen, hval⟩ := hk
  obtain ⟨buf, hbuf, hread⟩ := b58tobin_encode laws 44 k (by omega)
  rw [hlen] at hbuf hread
  have hverify := (secret.verify k hlen).mpr hval
  obtain ⟨p, hp⟩ := Option.isSome_iff_exists.mp (secret.create k hlen hverify)
  have hle := length_base58Encode_privkey hlen
  simp only [decodeB58Privkey, hbuf, hread, hverify, hp, if_neg (Nat.not_lt.mpr hle), ne_eq,
    not_true_eq_false, if_false, if_true]
  cases wantPubkey <;> rfl

theorem of_decodeB58Privkey (secret : ec.SecretLaws) {s : CString} {wantPubkey : Bool}
    {k : List UInt8} {p : Option P} (h : decodeB58Privkey b58 ec s wantPubkey = .ok (k, p)) :
    IsPrivateKey k ∧ s = base58Encode k := by
  cases htobin : b58.b58tobin 44 s with
  | none =>
    simp only [decodeB58Privkey, htobin] at h
    split_ifs at h
  | some r =>
    obtain ⟨buf, dsz⟩ := r
    simp only [decodeB58Privkey, htobin] at h
    split_ifs at h with hlong hsz hverify hwant
    all_goals obtain rfl : dsz = 32 := Decidable.not_not.mp hsz
    all_goals obtain ⟨hlen, henc⟩ := b58tobin_read laws htobin (by decide)
    all_goals have hval := (secret.verify _ hlen).mp hverify
    · cases hcreate : ec.ecPubkeyCreate ((buf.drop (44 - 32)).take 32) with
      | none => simp [hcreate] at h
      | some q =>
        simp only [hcreate, Except.ok.injEq, Prod.mk.injEq] at h
        obtain ⟨rfl, -⟩ := h
        exact ⟨⟨hlen, hval⟩, henc.symm⟩
    · simp only [Except.ok.injEq, Prod.mk.injEq] at h
      obtain ⟨rfl, -⟩ := h
      exact ⟨⟨hlen, hval⟩, henc.symm⟩

theorem decodeB58Pubkey_encode {c : List UInt8} {p : P} (hlen : c.length = 33)
    (hhead : c.getD 0 0 = 0x02 ∨ c.getD 0 0 = 0x03) (hparse : ec.ecPubkeyParse c = some p) :
    decodeB58Pubkey b58 ec (base58Encode c) = .ok p := by
  obtain ⟨buf, hbuf, hread⟩ := b58tobin_encode laws 46 c (by omega)
  rw [hlen] at hbuf hread
  have hle := length_base58Encode_pubkey hlen
  have hprefix : ¬ (c.getD 0 0 ≠ 0x02 ∧ c.getD 0 0 ≠ 0x03) := by
    rintro ⟨h2, h3⟩
    exact hhead.elim h2 h3
  simp only [decodeB58Pubkey, hbuf, hread, hparse, if_neg (Nat.not_lt.mpr hle), if_neg hprefix, ne_eq,
    not_true_eq_false, if_false]

theorem of_decodeB58Pubkey {s : CString} {p : P} (h : decodeB58Pubkey b58 ec s = .ok p) :
    ∃ c, c.length = 33 ∧ ec.ecPubkeyParse c = some p ∧ s = base58Encode c := by
  cases htobin : b58.b58tobin 46 s with
  | none =>
    simp only [decodeB58Pubkey, htobin] at h
    split_ifs at h
  | some r =>
    obtain ⟨buf, dsz⟩ := r
    simp only [decodeB58Pubkey, htobin] at h
    split_ifs at h with hlong hsz hhead
    obtain rfl : dsz = 33 := Decidable.not_not.mp hsz
    obtain ⟨hlen, henc⟩ := b58tobin_read laws htobin (by decide)
    cases hparse : ec.ecPubkeyParse ((buf.drop (46 - 33)).take 33) with
    | none => simp [hparse] at h
    | some q =>
      simp only [hparse, Except.ok.injEq] at h
      obtain rfl := h
      exact ⟨_, hlen, hparse, henc.symm⟩

end Base58

/-! ### Key strings -/

/-- The encodings of private keys and of compressed points. -/
def IsPrivkeyString (s : CString) : Prop := ∃ k, IsPrivateKey k ∧ s = base58Encode k

def IsPubkeyString (s : CString) : Prop :=
  ∃ c, c.length = 33 ∧ IsCompressedPoint c ∧ s = base58Encode c

theorem IsCompressedPoint.head {c : List UInt8} (h : IsCompressedPoint c) :
    c.getD 0 0 = 0x02 ∨ c.getD 0 0 = 0x03 := by
  obtain ⟨head, x, rfl, -, hhead, -⟩ := h
  exact hhead

section Decoders

variable {b58 : Libbase58} {ec : Secp256k1 P}

theorem decodeB58Privkey_accepts_iff (laws : b58.Laws) (secret : ec.SecretLaws) (s : CString)
    (wantPubkey : Bool) :
    (∃ r, decodeB58Privkey b58 ec s wantPubkey = .ok r) ↔ IsPrivkeyString s := by
  constructor
  · rintro ⟨⟨k, p⟩, h⟩
    obtain ⟨hk, hs⟩ := of_decodeB58Privkey laws secret h
    exact ⟨k, hk, hs⟩
  · rintro ⟨k, hk, rfl⟩
    exact ⟨_, decodeB58Privkey_encode laws secret hk wantPubkey⟩

theorem privkeyToB58encForm_eq (laws : b58.Laws) {malloc : ℕ → Bool} (hmalloc : ∀ n, malloc n = true)
    {k : List UInt8} (hlen : k.length = 32) :
    privkeyToB58encForm b58 malloc k = some (base58Encode k) := by
  have hle := length_base58Encode_privkey hlen
  exact b58encData_eq laws hmalloc hlen (by omega)

theorem decodeB58Pubkey_accepts_iff (laws : b58.Laws) (pub : ec.PublicLaws) (s : CString) :
    (∃ p, decodeB58Pubkey b58 ec s = .ok p) ↔ IsPubkeyString s := by
  constructor
  · rintro ⟨p, h⟩
    obtain ⟨c, hlen, hparse, hs⟩ := of_decodeB58Pubkey laws h
    exact ⟨c, hlen, (pub.parse c hlen).mp (by rw [hparse]; rfl), hs⟩
  · rintro ⟨c, hlen, hc, rfl⟩
    obtain ⟨p, hp⟩ := Option.isSome_iff_exists.mp ((pub.parse c hlen).mpr hc)
    exact ⟨p, decodeB58Pubkey_encode laws hlen hc.head hp⟩

theorem pubkeyToB58encForm_eq (laws : b58.Laws) {malloc : ℕ → Bool} (hmalloc : ∀ n, malloc n = true)
    {c : List UInt8} {p : P} (hlen : c.length = 33) (hser : ec.ecPubkeySerialize p = some c) :
    pubkeyToB58encForm b58 ec malloc p = some (base58Encode c) := by
  have hle := length_base58Encode_pubkey hlen
  simp only [pubkeyToB58encForm, hser, if_pos hlen]
  exact b58encData_eq laws hmalloc hlen (by omega)

/-- **The decoders accept exactly the canonical encodings, and encoding undoes decoding.**  So no two
strings are accepted as the same key. -/
theorem keyStrings_canonical (laws : b58.Laws) (secret : ec.SecretLaws) (pub : ec.PublicLaws)
    (malloc : ℕ → Bool) (hmalloc : ∀ n, malloc n = true) :
    (∀ s want, (∃ r, decodeB58Privkey b58 ec s want = .ok r) ↔ IsPrivkeyString s) ∧
    (∀ s want k p, decodeB58Privkey b58 ec s want = .ok (k, p) →
      privkeyToB58encForm b58 malloc k = some s) ∧
    (∀ s, (∃ p, decodeB58Pubkey b58 ec s = .ok p) ↔ IsPubkeyString s) ∧
    (∀ s p, decodeB58Pubkey b58 ec s = .ok p → pubkeyToB58encForm b58 ec malloc p = some s) ∧
    (∀ s s' want want' k p p', decodeB58Privkey b58 ec s want = .ok (k, p) →
      decodeB58Privkey b58 ec s' want' = .ok (k, p') → s = s') ∧
    ∀ s s' p, decodeB58Pubkey b58 ec s = .ok p → decodeB58Pubkey b58 ec s' = .ok p → s = s' := by
  have hpriv : ∀ s want k p, decodeB58Privkey b58 ec s want = .ok (k, p) →
      privkeyToB58encForm b58 malloc k = some s := by
    intro s want k p h
    obtain ⟨hk, rfl⟩ := of_decodeB58Privkey laws secret h
    exact privkeyToB58encForm_eq laws hmalloc hk.1
  have hpub : ∀ s p, decodeB58Pubkey b58 ec s = .ok p →
      pubkeyToB58encForm b58 ec malloc p = some s := by
    intro s p h
    obtain ⟨c, hlen, hparse, rfl⟩ := of_decodeB58Pubkey laws h
    exact pubkeyToB58encForm_eq laws hmalloc hlen (pub.serialize c p hlen hparse)
  refine ⟨decodeB58Privkey_accepts_iff laws secret, hpriv, decodeB58Pubkey_accepts_iff laws pub, hpub,
    ?_, ?_⟩
  · intro s s' want want' k p p' h h'
    exact Option.some.inj ((hpriv s want k p h).symm.trans (hpriv s' want' k p' h'))
  · intro s s' p h h'
    exact Option.some.inj ((hpub s p h).symm.trans (hpub s' p h'))

end Decoders

/-! ### Sample libraries -/

/-- libbase58 as its promises describe it. -/
def sampleLibbase58 : Libbase58 where
  b58enc cap data :=
    if (base58Encode data).length < cap then
      some (base58Encode data, (base58Encode data).length + 1)
    else none
  b58tobin cap s :=
    match base58Digits s with
    | none => none
    | some ds =>
      if value 58 ds < 256 ^ cap then
        some (rightAligned cap (value 58 ds), (Nat.digits 256 (value 58 ds)).length + zeros ds)
      else none

theorem sampleLibbase58_laws : sampleLibbase58.Laws where
  enc cap data h := if_pos h
  tobin cap s ds hs h := by simp only [sampleLibbase58, hs, if_pos h]
  foreign cap s hs := by simp only [sampleLibbase58, hs]
  tooLarge cap s ds hs h := by simp only [sampleLibbase58, hs, if_neg (Nat.not_lt.mpr h)]

/-- `0x7fff…ff` and its compressed public key. -/
def samplePrivateKey : List UInt8 := 0x7f :: List.replicate 31 0xff

def samplePublicKey : List UInt8 :=
  [0x02, 0x37, 0x0e, 0xbf, 0xed, 0x47, 0x31, 0x78, 0x15, 0x9f, 0xd0, 0x8c, 0x3f, 0x7b, 0xc0, 0x7e,
   0x12, 0x30, 0x17, 0x92, 0xfb, 0xd2, 0x51, 0x55, 0x4a, 0x80, 0x29, 0x8e, 0xfc, 0x66, 0x6c, 0x65,
   0x1d]

theorem samplePublicKey_isCompressedPoint : IsCompressedPoint samplePublicKey :=
  ⟨0x02, samplePublicKey.tail, by decide +kernel, by decide +kernel, by decide +kernel,
    by decide +kernel, 0xad08b75161c542e5503b777625c296b9ef85455756ba7d582bc3c00965dea4a2,
    by decide +kernel, by decide +kernel, by decide +kernel⟩

/-- The compressed generator, which is the public key of `1`. -/
def generatorPublicKey : List UInt8 :=
  [0x02, 0x79, 0xbe, 0x66, 0x7e, 0xf9, 0xdc, 0xbb, 0xac, 0x55, 0xa0, 0x62, 0x95, 0xce, 0x87, 0x0b,
   0x07, 0x02, 0x9b, 0xfc, 0xdb, 0x2d, 0xce, 0x28, 0xd9, 0x59, 0xf2, 0x81, 0x5b, 0x16, 0xf8, 0x17,
   0x98]

theorem generatorPublicKey_isCompressedPoint : IsCompressedPoint generatorPublicKey :=
  ⟨0x02, generatorPublicKey.tail, by decide +kernel, by decide +kernel, by decide +kernel,
    by decide +kernel, 0x483ada7726a3c4655da4fbfc0e1108a8fd17b448a68554199c47d08ffb10d4b8,
    by decide +kernel, by decide +kernel, by decide +kernel⟩

open Classical in
/-- A libsecp256k1 whose public keys are their compressed form; `ecPubkeyCreate` is right for
`samplePrivateKey` and for `1`. -/
noncomputable def sampleSecp256k1 : Secp256k1 (List UInt8) where
  ecSeckeyVerify k := decide (0 < beValue k ∧ beValue k < secp256k1Order)
  ecPubkeyCreate k := some (if k = samplePrivateKey then samplePublicKey else generatorPublicKey)
  ecPubkeyParse c := if IsCompressedPoint c then some c else none
  ecPubkeySerialize c := some c

theorem sampleSecp256k1_create :
    sampleSecp256k1.ecPubkeyCreate samplePrivateKey = some samplePublicKey :=
  congrArg some (if_pos rfl)

theorem sampleSecp256k1_created {k p : List UInt8} (h : sampleSecp256k1.ecPubkeyCreate k = some p) :
    p = samplePublicKey ∨ p = generatorPublicKey := by
  unfold sampleSecp256k1 at h
  dsimp only at h
  split_ifs at h
  · exact Or.inl (Option.some.inj h).symm
  · exact Or.inr (Option.some.inj h).symm

theorem sampleSecp256k1_secretLaws : sampleSecp256k1.SecretLaws where
  verify _ _ := decide_eq_true_iff
  create _ _ _ := rfl

theorem sampleSecp256k1_publicLaws : sampleSecp256k1.PublicLaws where
  parse c _ := by
    unfold sampleSecp256k1
    dsimp only
    split_ifs with hc <;> simp [hc]
  serialize c p _ h := by
    unfold sampleSecp256k1 at h ⊢
    dsimp only at h ⊢
    split_ifs at h
    exact h.symm

/-- The strings of the two sample keys are accepted. -/
theorem keyStrings_canonical_sample :
    (∃ r, decodeB58Privkey sampleLibbase58 sampleSecp256k1
      (ascii "9cfBkPsoQ2NPHYPi7b69bcQG8FKfNc33k2UfRxiPFyd8") true = .ok r) ∧
    ∃ p, decodeB58Pubkey sampleLibbase58 sampleSecp256k1
      (ascii "fAZD9GEZLsiub6WkiUu2WBvUcpMu3ffZf33DZn2zJ1gp") = .ok p := by
  obtain ⟨hpriv, -, hpub, -⟩ := keyStrings_canonical sampleLibbase58_laws sampleSecp256k1_secretLaws
    sampleSecp256k1_publicLaws (fun _ => true) (fun _ => rfl)
  refine ⟨(hpriv _ true).mpr ⟨samplePrivateKey, ?_, by decide +kernel⟩,
    (hpub _).mpr ⟨samplePublicKey, rfl, samplePublicKey_isCompressedPoint, by decide +kernel⟩⟩
  exact ⟨by decide +kernel, by decide +kernel, by decide +kernel⟩

end Cryptochan
