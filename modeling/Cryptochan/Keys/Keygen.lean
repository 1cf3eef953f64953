import Cryptochan.Config.Accept
import Cryptochan.Keys.Canonical

/-!
# Cryptochan.Keys.Keygen — the printed key pair is accepted

A draw whose value is not below the group order starts with the byte `0xff`; one shift of that byte
puts it below.  So the second attempt fails on the zero draw only, and whatever is printed is accepted
by the decoders of the configuration loader (`keygenDisplay_accepted`).
-/

namespace Cryptochan

variable {P : Type}

/-- A created public key has a compressed form, which is parsed as the same key. -/
def Secp256k1.CreatedLaw (ec : Secp256k1 P) : Prop :=
  ∀ k p, k.length = 32 → ec.ecPubkeyCreate k = some p → ∃ c, ec.ecPubkeySerialize p = some c ∧
    c.length = 33 ∧ (c.getD 0 0 = 0x02 ∨ c.getD 0 0 = 0x03) ∧ ec.ecPubkeyParse c = some p

/-! ### The shift -/

theorem beValue_replicate_zero (n : ℕ) : beValue (List.replicate n 0) = 0 := by
  induction n with
  | zero => rfl
  | succ n ih =>
    rw [List.replicate_succ, beValue_cons, ih]
    simp

theorem beValue_eq_zero_iff {data : List UInt8} {n : ℕ} (hlen : data.length = n) :
    beValue data = 0 ↔ data = List.replicate n 0 := by
  constructor
  · intro h
    refine beValue_inj (by simp [hlen]) ?_
    rw [h, beValue_replicate_zero]
  · rintro rfl
    exact beValue_replicate_zero n

@[simp] theorem length_shiftFirst (data : List UInt8) : (shiftFirst data).length = data.length := by
  cases data with
  | nil => rfl
  | cons b rest => rfl

theorem shiftFirst_replicate_zero (n : ℕ) :
    shiftFirst (List.replicate n 0) = List.replicate n 0 := by
  cases n with
  | zero => rfl
  | succ n => rfl

/-- A value that overflows the order is good after the shift. -/
theorem isPrivateKey_shiftFirst {data : List UInt8} (hlen : data.length = 32)
    (h : secp256k1Order ≤ beValue data) : IsPrivateKey (shiftFirst data) := by
  obtain ⟨b, rest, rfl⟩ := List.exists_cons_of_length_eq_add_one hlen
  have hrest : rest.length = 31 := by simpa using hlen
  have hlt := beValue_lt rest
  rw [beValue_cons] at h
  rw [hrest] at h hlt
  have hb := b.toNat_lt
  have hhalf : (b >>> 1).toNat = b.toNat / 2 := by
    rw [UInt8.toNat_shiftRight]
    exact Nat.shiftRight_eq_div_pow b.toNat 1
  refine ⟨by rw [length_shiftFirst, hlen], ?_⟩
  rw [shiftFirst, beValue_cons, hrest, hhalf]
  unfold secp256k1Order at h ⊢
  omega

/-! ### The two attempts -/

section Keygen

variable {b58 : Libbase58} {ec : Secp256k1 P}

theorem privkeyToPubkey_of_isPrivateKey (secret : ec.SecretLaws) {k : List UInt8}
    (hk : IsPrivateKey k) : ∃ p, ec.ecPubkeyCreate k = some p ∧ privkeyToPubkey ec k = some p := by
  have hverify := (secret.verify k hk.1).mpr hk.2
  obtain ⟨p, hp⟩ := Option.isSome_iff_exists.mp (secret.create k hk.1 hverify)
  exact ⟨p, hp, by rw [privkeyToPubkey, if_pos hverify, hp]⟩

theorem privkeyToPubkey_of_not (secret : ec.SecretLaws) {k : List UInt8} (hlen : k.length = 32)
    (hk : ¬ IsPrivateKey k) : privkeyToPubkey ec k = none := by
  rw [privkeyToPubkey, if_neg]
  intro hverify
  exact hk ⟨hlen, (secret.verify k hlen).mp hverify⟩

/-- The key bytes the draw leads to. -/
def keyOfDraw (draw : List UInt8) : List UInt8 :=
  if beValue draw < secp256k1Order then draw else shiftFirst draw

theorem isPrivateKey_keyOfDraw {draw : List UInt8} (hlen : draw.length = 32)
    (h : draw ≠ List.replicate 32 0) : IsPrivateKey (keyOfDraw draw) := by
  unfold keyOfDraw
  split_ifs with hlt
  · have hne : beValue draw ≠ 0 := fun h0 => h ((beValue_eq_zero_iff hlen).mp h0)
    exact ⟨hlen, by omega, hlt⟩
  · exact isPrivateKey_shiftFirst hlen (Nat.le_of_not_lt hlt)

theorem generateKeyPair_zero (secret : ec.SecretLaws) :
    generateKeyPair ec (List.replicate 32 0) = none := by
  have hzero : privkeyToPubkey ec (List.replicate 32 0) = none := by
    refine privkeyToPubkey_of_not secret (by simp) ?_
    intro hk
    have := hk.2.1
    rw [beValue_replicate_zero] at this
    exact Nat.lt_irrefl 0 this
  rw [generateKeyPair, shiftFirst_replicate_zero, hzero]

theorem generateKeyPair_eq (secret : ec.SecretLaws) {draw : List UInt8} (hlen : draw.length = 32)
    (h : draw ≠ List.replicate 32 0) : ∃ p, ec.ecPubkeyCreate (keyOfDraw draw) = some p ∧
      privkeyToPubkey ec (keyOfDraw draw) = some p ∧
      generateKeyPair ec draw = some (keyOfDraw draw, p) := by
  obtain ⟨p, hcreate, hp⟩ := privkeyToPubkey_of_isPrivateKey secret (isPrivateKey_keyOfDraw hlen h)
  refine ⟨p, hcreate, hp, ?_⟩
  by_cases hlt : beValue draw < secp256k1Order
  · rw [keyOfDraw, if_pos hlt] at hp ⊢
    rw [generateKeyPair, hp]
  · have hdraw : privkeyToPubkey ec draw = none :=
      privkeyToPubkey_of_not secret hlen fun hk => hlt hk.2.2
    rw [keyOfDraw, if_neg hlt] at hp ⊢
    rw [generateKeyPair, hdraw, hp]

/-- The two printed lines. -/
def keyPairText (privateKey publicKey : CString) : CString :=
  ascii "private-key = \"" ++ privateKey ++ ascii "\";\n" ++
    (ascii "public-key = \"" ++ publicKey ++ ascii "\";\n")

/-- A draw other than zero: what is printed, and what the decoders make of it. -/
theorem keygenDisplay_prints [DecidableEq P] (laws : b58.Laws) (secret : ec.SecretLaws)
    (created : ec.CreatedLaw) {malloc : ℕ → Bool} (hmalloc : ∀ n, malloc n = true)
    {draw : List UInt8} (hlen : draw.length = 32) (h : draw ≠ List.replicate 32 0) :
    ∃ privateKey publicKey p,
      keygenDisplay b58 ec malloc (some draw) = ⟨keyPairText privateKey publicKey, [], true⟩ ∧
      decodeB58Privkey b58 ec privateKey true = .ok (keyOfDraw draw, some p) ∧
      decodeB58Privkey b58 ec privateKey false = .ok (keyOfDraw draw, none) ∧
      decodeB58Pubkey b58 ec publicKey = .ok p ∧
      checkPubkeyBelongsToPrivkey ec (keyOfDraw draw) p = true := by
  have hk := isPrivateKey_keyOfDraw hlen h
  obtain ⟨p, hcreate, hp, hpair⟩ := generateKeyPair_eq secret hlen h
  obtain ⟨c, hser, hclen, hhead, hparse⟩ := created _ p hk.1 hcreate
  refine ⟨base58Encode (keyOfDraw draw), base58Encode c, p, ?_, ?_, ?_, ?_, ?_⟩
  · simp only [keygenDisplay, hpair, privkeyToB58encForm_eq laws hmalloc hk.1,
      pubkeyToB58encForm_eq laws hmalloc hclen hser, displayKey, List.append_nil, keyPairText]
    rfl
  · rw [decodeB58Privkey_encode laws secret hk, if_pos rfl, hcreate]
  · rw [decodeB58Privkey_encode laws secret hk]
    rfl
  · exact decodeB58Pubkey_encode laws hclen hhead hparse
  · simp [checkPubkeyBelongsToPrivkey, hp]

/-- **Every printed key pair is accepted.**  `keygen_display` fails on the zero draw only; otherwise
it prints strings that the decoders take back to the key bytes used and to a public key that belongs
to them. -/
theorem keygenDisplay_accepted [DecidableEq P] (laws : b58.Laws) (secret : ec.SecretLaws)
    (created : ec.CreatedLaw) (malloc : ℕ → Bool) (hmalloc : ∀ n, malloc n = true)
    (draw : List UInt8) (hlen : draw.length = 32) :
    ((keygenDisplay b58 ec malloc (some draw)).success = false ↔ draw = List.replicate 32 0) ∧
    (draw ≠ List.replicate 32 0 → ∃ privateKey publicKey p,
      keygenDisplay b58 ec malloc (some draw) = ⟨keyPairText privateKey publicKey, [], true⟩ ∧
      decodeB58Privkey b58 ec privateKey true = .ok (keyOfDraw draw, some p) ∧
      decodeB58Privkey b58 ec privateKey false = .ok (keyOfDraw draw, none) ∧
      decodeB58Pubkey b58 ec publicKey = .ok p ∧
      checkPubkeyBelongsToPrivkey ec (keyOfDraw draw) p = true) := by
  refine ⟨?_, keygenDisplay_prints laws secret created hmalloc hlen⟩
  constructor
  · intro hfail
    by_contra h
    obtain ⟨privateKey, publicKey, p, hrun, -⟩ :=
      keygenDisplay_prints laws secret created hmalloc hlen h
    rw [hrun] at hfail
    exact Bool.noConfusion hfail
  · rintro rfl
    simp only [keygenDisplay, generateKeyPair_zero secret]

end Keygen

theorem sampleSecp256k1_createdLaw : sampleSecp256k1.CreatedLaw := by
  intro k p _ hp
  rcases sampleSecp256k1_created hp with rfl | rfl
  · exact ⟨samplePublicKey, rfl, rfl, Or.inl rfl, if_pos samplePublicKey_isCompressedPoint⟩
  · exact ⟨generatorPublicKey, rfl, rfl, Or.inl rfl, if_pos generatorPublicKey_isCompressedPoint⟩

/-- The public key of `1` does not belong to the sample private key. -/
theorem generatorPublicKey_not_belongs :
    checkPubkeyBelongsToPrivkey sampleSecp256k1 samplePrivateKey generatorPublicKey = false := by
  have hverify : sampleSecp256k1.ecSeckeyVerify samplePrivateKey = true :=
    (sampleSecp256k1_secretLaws.verify _ rfl).mpr ⟨by decide +kernel, by decide +kernel⟩
  simp only [checkPubkeyBelongsToPrivkey, privkeyToPubkey, hverify, if_true, sampleSecp256k1_create]
  decide +kernel

/-- The draw of thirty-two bytes `0xff` needs the shift; another public key would not belong. -/
theorem keygenDisplay_accepted_allOnes : ∃ privateKey publicKey p,
    keygenDisplay sampleLibbase58 sampleSecp256k1 (fun _ => true) (some (List.replicate 32 0xff)) =
      ⟨keyPairText privateKey publicKey, [], true⟩ ∧
    decodeB58Privkey sampleLibbase58 sampleSecp256k1 privateKey true =
      .ok (samplePrivateKey, some p) ∧
    decodeB58Pubkey sampleLibbase58 sampleSecp256k1 publicKey = .ok p ∧
    checkPubkeyBelongsToPrivkey sampleSecp256k1 samplePrivateKey p = true ∧
    checkPubkeyBelongsToPrivkey sampleSecp256k1 samplePrivateKey generatorPublicKey = false := by
  have hkey : keyOfDraw (List.replicate 32 0xff) = samplePrivateKey := by decide +kernel
  obtain ⟨privateKey, publicKey, p, hrun, hpriv, -, hpub, hcheck⟩ :=
    (keygenDisplay_accepted sampleLibbase58_laws sampleSecp256k1_secretLaws sampleSecp256k1_createdLaw
      (fun _ => true) (fun _ => rfl) (List.replicate 32 0xff) rfl).2 (by decide)
  rw [hkey] at hpriv hcheck
  exact ⟨privateKey, publicKey, p, hrun, hpriv, hpub, hcheck, generatorPublicKey_not_belongs⟩

end Cryptochan
