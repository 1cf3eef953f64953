import Cryptochan.Config.Accept
import Cryptochan.Keys.Keygen

/-!
# Cryptochan.Config.KeyPair — the key pair of a loaded configuration

A private key that is loaded is a valid one, and a public key that is given belongs to it.  But the
key that `decode_b58_privkey` derives stays in the local `orig_pubkey`: `public_key_data` is filled
only where a string stands under `public-key`, and is zero in every other configuration that is
loaded (`cryptochanConfigLoad_keyPair_iff`).
-/

namespace Cryptochan

variable {σ P : Type}

/-! ### Statement -/

namespace CryptochanConfig

variable (zero : P) (cc : CryptochanConfig P)

/-- What is in `private_key_data`, and in `public_key_data`: the zeros of `main` until a key is
decoded. -/
def privateKeyField : List UInt8 := cc.privateKeyData.getD (List.replicate 32 0)

def publicKeyField : P := cc.publicKeyData.getD zero

def HasKeyPair [DecidableEq P] (ec : Secp256k1 P) : Prop :=
  ec.ecSeckeyVerify cc.privateKeyField = true ∧
    checkPubkeyBelongsToPrivkey ec cc.privateKeyField (cc.publicKeyField zero) = true

end CryptochanConfig

section Statement

variable (lib : Libconfig σ) (strdup : CString → Option CString) (keys : KeyFunctions P)
  (config : σ)

/-- The configuration has a private key that the loader takes. -/
def GivesPrivkey (s : CString) (d : List UInt8 × Option P) : Prop :=
  lib.lookupString config (ascii "private-key") = some s ∧ (strdup s).isSome ∧
    keys.decodeB58Privkey s = .ok d

/-- Of the outcome `r` of a load: a loaded configuration has a matching key pair, and a public key
that does not belong to the private key makes the load fail. -/
structure CarriesKeyPair [DecidableEq P] (ec : Secp256k1 P) (zero : P)
    (r : Option (Loading P × Bool)) : Prop where
  keyPair : ∀ l, r = some (l, true) → l.ccConfig.HasKeyPair zero ec
  refuses : ∀ s d, GivesPrivkey lib strdup keys config s d → ¬ PubkeyAccepted lib keys config d.1 →
    ∀ l, r ≠ some (l, true)

/-- An address that is complete and that the loader could copy. -/
def copiedAddr (setting : σ) (name : CString) : Option SockAddr := do
  let nest ← lib.lookup setting name
  let host ← lib.lookupString nest (ascii "host")
  let host ← strdup host
  let port ← lib.lookupInt nest (ascii "port")
  some ⟨some host, port⟩

def SectionCopied (setting : σ) : Prop :=
  (copiedAddr lib strdup setting (ascii "listen")).isSome ∧
    (copiedAddr lib strdup setting (ascii "target")).isSome

/-- There is no string under `public-key`, and nothing else that makes the load fail. -/
def PubkeyOmitted : Prop :=
  lib.lookupString config (ascii "public-key") = none ∧
    (∃ s d, GivesPrivkey lib strdup keys config s d) ∧
    ∀ setting, lib.lookup config (ascii "client") = some setting → SectionCopied lib strdup setting

end Statement

/-! ### Sections -/

section Sections

variable (lib : Libconfig σ) (strdup : CString → Option CString) (config : σ) {l : Loading P}

theorem parseSockAddr_outcome (root : σ) (name : CString) (sa : SockAddr) :
    ∃ sa' desc ok,
      cryptochanConfigParseSockAddr lib strdup root name sa none = some (sa', desc, ok) ∧
      (ok = true ↔ (copiedAddr lib strdup root name).isSome) ∧ (ok = true → desc = none) := by
  unfold cryptochanConfigParseSockAddr copiedAddr
  simp only [assureErrorDescEmpty, Option.isSome_none, Bool.false_eq_true, if_false,
    Option.bind_eq_bind, Option.bind_some]
  cases hnest : lib.lookup root name with
  | none => exact ⟨_, _, _, rfl, by simp, by simp⟩
  | some nest =>
    dsimp only [Option.bind_some]
    cases hhost : lib.lookupString nest (ascii "host") with
    | none => exact ⟨_, _, _, rfl, by simp, by simp⟩
    | some host =>
      dsimp only [Option.bind_some]
      cases hdup : strdup host with
      | none => exact ⟨_, _, _, rfl, by simp, by simp⟩
      | some host' =>
        dsimp only [Option.bind_some]
        cases hport : lib.lookupInt nest (ascii "port") with
        | some port => exact ⟨_, _, _, rfl, by simp, by simp⟩
        | none =>
          dsimp only
          cases lib.lookup nest (ascii "port") with
          | none => exact ⟨_, _, _, rfl, by simp, by simp⟩
          | some _ => exact ⟨_, _, _, rfl, by simp, by simp⟩

theorem parseAddresses_outcome (kind : CString) (setting : σ) (sec : ConfigSection) :
    ∃ sec' desc ok, parseAddresses lib strdup kind setting sec none = some (sec', desc, ok) ∧
      (ok = true ↔ SectionCopied lib strdup setting) ∧ (ok = true → desc = none) := by
  obtain ⟨sa1, desc1, ok1, e1, hok1, hdesc1⟩ :=
    parseSockAddr_outcome lib strdup setting (ascii "listen") sec.listen
  unfold parseAddresses SectionCopied
  simp only [assureErrorDescEmpty, Option.isSome_none, Bool.false_eq_true, if_false,
    Option.bind_eq_bind, Option.bind_some, e1]
  cases ok1 with
  | false => exact ⟨_, _, _, rfl, iff_of_false (by simp) fun h => absurd (hok1.mpr h.1) (by simp),
      by simp⟩
  | true =>
    obtain ⟨sa2, desc2, ok2, e2, hok2, -⟩ :=
      parseSockAddr_outcome lib strdup setting (ascii "target") sec.target
    simp only [hdesc1 rfl, if_true, e2, Option.bind_some]
    cases ok2 with
    | false => exact ⟨_, _, _, rfl, iff_of_false (by simp) fun h => absurd (hok2.mpr h.2) (by simp),
        by simp⟩
    | true => exact ⟨_, _, _, rfl, by simp [hok1.mp rfl, hok2.mp rfl], fun _ => rfl⟩

/-- The keys of a configuration are as they were. -/
def SameKeys (cc cc' : CryptochanConfig P) : Prop :=
  cc'.privateKeyData = cc.privateKeyData ∧ cc'.publicKeyData = cc.publicKeyData

theorem loadClient_outcome (he : l.errorDesc = none) :
    ∃ l' ok, loadClient lib strdup config l = some (l', ok) ∧
      (ok = true ↔ ∀ setting, lib.lookup config (ascii "client") = some setting →
        SectionCopied lib strdup setting) ∧
      (ok = true → l'.errorDesc = none) ∧ SameKeys l.ccConfig l'.ccConfig := by
  unfold loadClient loadSection cryptochanConfigParseClient
  cases hs : lib.lookup config (ascii "client") with
  | none => exact ⟨_, _, rfl, by simp, fun _ => he, rfl, rfl⟩
  | some setting =>
    obtain ⟨sec, desc, ok, e, hok, hdesc⟩ := parseAddresses_outcome lib strdup
      (ascii "client") setting { l.ccConfig.client with present := true }
    simp only [he, e, Option.bind_eq_bind, Option.bind_some]
    cases ok with
    | false => exact ⟨_, _, rfl, by simpa using hok, by simp, rfl, rfl⟩
    | true => exact ⟨_, _, rfl, by simpa using hok, hdesc, rfl, rfl⟩

/-- The `server` section never makes the load fail. -/
theorem loadServer_outcome (he : l.errorDesc = none) :
    ∃ l', loadServer lib strdup config l = some (l', true) ∧ SameKeys l.ccConfig l'.ccConfig := by
  unfold loadServer loadSection cryptochanConfigParseServer
  cases hs : lib.lookup config (ascii "server") with
  | none => exact ⟨_, rfl, rfl, rfl⟩
  | some setting =>
    obtain ⟨sec, desc, ok, e, -⟩ := parseAddresses_outcome lib strdup
      (ascii "server") setting { l.ccConfig.server with present := true }
    simp only [he, e, Option.bind_eq_bind, Option.bind_some, if_true]
    exact ⟨_, rfl, rfl, rfl⟩

/-- Both sections together. -/
theorem loadSections_outcome (he : l.errorDesc = none) :
    ∃ l' ok, runStages [loadClient lib strdup config, loadServer lib strdup config] l =
        some (l', ok) ∧
      (ok = true ↔ ∀ setting, lib.lookup config (ascii "client") = some setting →
        SectionCopied lib strdup setting) ∧ SameKeys l.ccConfig l'.ccConfig := by
  obtain ⟨l1, ok, e1, hok, he1, hkeys1⟩ :=
    loadClient_outcome (l := l) lib strdup config he
  cases ok with
  | false => exact ⟨l1, false, by simp [runStages_cons, e1], hok, hkeys1⟩
  | true =>
    obtain ⟨l2, e2, hkeys2⟩ :=
      loadServer_outcome lib strdup config (he1 rfl)
    exact ⟨l2, true, by simp [runStages, e1, e2], hok, hkeys2.1.trans hkeys1.1,
      hkeys2.2.trans hkeys1.2⟩

end Sections

/-! ### Keys -/

section Keys

variable (lib : Libconfig σ) {strdup : CString → Option CString} (keys : KeyFunctions P)
  (hcopy : ∀ s c, strdup s = some c → c = s) (path : CString) (config : σ)
include hcopy

theorem loadPrivateKey_outcome (l : Loading P) :
    (∃ s d l', GivesPrivkey lib strdup keys config s d ∧
      loadPrivateKey lib strdup keys path config l = some (l', true) ∧
      l'.ccConfig.privateKeyData = some d.1 ∧
      l'.ccConfig.publicKeyData = l.ccConfig.publicKeyData ∧ l'.errorDesc = l.errorDesc) ∨
    (¬ ∃ s d, GivesPrivkey lib strdup keys config s d) ∧
      ∃ l', loadPrivateKey lib strdup keys path config l = some (l', false) := by
  unfold loadPrivateKey GivesPrivkey
  cases hs : lib.lookupString config (ascii "private-key") with
  | none => exact Or.inr ⟨by simp, _, rfl⟩
  | some s =>
    dsimp only
    cases hdup : strdup s with
    | none =>
      refine Or.inr ⟨?_, _, rfl⟩
      rintro ⟨s', d, hs', hcopied, -⟩
      obtain rfl := Option.some.inj hs'
      simp [hdup] at hcopied
    | some c =>
      obtain rfl := hcopy s c hdup
      dsimp only
      cases hd : keys.decodeB58Privkey c with
      | error desc =>
        refine Or.inr ⟨?_, _, rfl⟩
        rintro ⟨s', d, hs', -, hd'⟩
        obtain rfl := Option.some.inj hs'
        rw [hd] at hd'
        exact absurd hd' (by simp)
      | ok d => exact Or.inl ⟨c, d, _, ⟨rfl, by simp [hdup], hd⟩, rfl, rfl, rfl, rfl⟩

/-- A public key that is given and passes the stage is stored, and belongs to the private key. -/
theorem loadPublicKey_outcome {l : Loading P} {k : List UInt8}
    (hk : l.ccConfig.privateKeyData = some k) :
    ∃ l' ok, loadPublicKey lib strdup keys path config l = some (l', ok) ∧
      (ok = true → l'.ccConfig.privateKeyData = some k ∧ l'.errorDesc = l.errorDesc ∧
        PubkeyAccepted lib keys config k) ∧
      (lib.lookupString config (ascii "public-key") = none →
        ok = true ∧ l'.ccConfig.publicKeyData = l.ccConfig.publicKeyData) ∧
      (lib.lookupString config (ascii "public-key") ≠ none → ok = true →
        ∃ q, l'.ccConfig.publicKeyData = some q ∧ keys.checkPubkeyBelongsToPrivkey k q = true) := by
  unfold loadPublicKey
  cases ht : lib.lookupString config (ascii "public-key") with
  | none =>
    refine ⟨l, true, rfl, fun _ => ⟨hk, rfl, ?_⟩, fun _ => ⟨rfl, rfl⟩, fun h => absurd rfl h⟩
    intro t ht'
    rw [ht] at ht'
    exact absurd ht' (by simp)
  | some t =>
    dsimp only
    cases hdup : strdup t with
    | none => exact ⟨_, false, rfl, by simp, by simp, by simp⟩
    | some c =>
      obtain rfl := hcopy t c hdup
      dsimp only
      cases hq : keys.decodeB58Pubkey c with
      | error desc => exact ⟨_, false, rfl, by simp, by simp, by simp⟩
      | ok q =>
        simp only [hk, Option.getD_some]
        split_ifs with hb
        · refine ⟨_, true, rfl, fun _ => ⟨rfl, rfl, ?_⟩, by simp, fun _ _ => ⟨q, rfl, hb⟩⟩
          intro t' ht'
          obtain rfl : c = t' := Option.some.inj (ht.symm.trans ht')
          exact ⟨q, hq, hb⟩
        · exact ⟨_, false, rfl, by simp, by simp, by simp⟩

end Keys

/-- A private key that is taken is a valid one. -/
theorem decodeB58Privkey_valid {b58 : Libbase58} {ec : Secp256k1 P} {s : CString}
    {d : List UInt8 × Option P} (h : decodeB58Privkey b58 ec s true = .ok d) :
    ec.ecSeckeyVerify d.1 = true := by
  simp only [decodeB58Privkey, if_true] at h
  split_ifs at h
  split at h
  · simp at h
  · split_ifs at h with hlen hverify
    split at h
    · simp at h
    · obtain rfl := Except.ok.inj h
      exact hverify

theorem GivesPrivkey.unique {lib : Libconfig σ} {strdup : CString → Option CString}
    {keys : KeyFunctions P} {config : σ} {s s' : CString} {d d' : List UInt8 × Option P}
    (h : GivesPrivkey lib strdup keys config s d) (h' : GivesPrivkey lib strdup keys config s' d') :
    d' = d := by
  obtain ⟨hs, -, hd⟩ := h
  obtain ⟨hs', -, hd'⟩ := h'
  obtain rfl := Option.some.inj (hs.symm.trans hs')
  exact Except.ok.inj (hd'.symm.trans hd)

/-- The zeroed public key belongs to no private key. -/
theorem not_belongs_zero [DecidableEq P] {ec : Secp256k1 P} {zero : P}
    (hzero : ∀ k q, ec.ecPubkeyCreate k = some q → q ≠ zero) (k : List UInt8) :
    checkPubkeyBelongsToPrivkey ec k zero = false := by
  unfold checkPubkeyBelongsToPrivkey privkeyToPubkey
  split_ifs with hverify
  · cases hq : ec.ecPubkeyCreate k with
    | none => rfl
    | some q => exact decide_eq_false (hzero k q hq).symm
  · rfl

/-! ### The load -/

/-- What a load that succeeds has found, and where it leaves the keys. -/
structure Loaded (lib : Libconfig σ) (strdup : CString → Option CString) (keys : KeyFunctions P)
    (config : σ) (l : Loading P) (s : CString) (d : List UInt8 × Option P) : Prop where
  gives : GivesPrivkey lib strdup keys config s d
  privateKey : l.ccConfig.privateKeyData = some d.1
  accepted : PubkeyAccepted lib keys config d.1
  publicKey : lib.lookupString config (ascii "public-key") ≠ none →
    ∃ q, l.ccConfig.publicKeyData = some q ∧ keys.checkPubkeyBelongsToPrivkey d.1 q = true
  omitted : lib.lookupString config (ascii "public-key") = none → l.ccConfig.publicKeyData = none
  client : ∀ setting, lib.lookup config (ascii "client") = some setting →
    SectionCopied lib strdup setting

theorem load_outcome (lib : Libconfig σ) {strdup : CString → Option CString} (keys : KeyFunctions P)
    (hcopy : ∀ s c, strdup s = some c → c = s) (path : CString) (config : σ) :
    ∃ l ok, cryptochanConfigLoad lib strdup keys path (.ok config) (.zero P) = some (l, ok) ∧
      (ok = true → ∃ s d, Loaded lib strdup keys config l s d) ∧
      (PubkeyOmitted lib strdup keys config → ok = true) := by
  simp only [cryptochanConfigLoad]
  rcases loadPrivateKey_outcome lib keys hcopy path config ⟨.zero P, none, none, []⟩ with
    ⟨s, d, l1, hgives, e1, hk1, hq1, he1⟩ | ⟨hnone, l1, e1⟩
  · obtain ⟨l2, ok2, e2, hok2, hnone2, hsome2⟩ :=
      loadPublicKey_outcome lib keys hcopy path config hk1
    rw [runStages_cons, e1, Option.bind_some, if_pos rfl, runStages_cons, e2, Option.bind_some]
    cases ok2 with
    | false => exact ⟨l2, false, rfl, by simp, fun h => (hnone2 h.1).1⟩
    | true =>
      obtain ⟨hk2, he2, haccepted⟩ := hok2 rfl
      obtain ⟨l3, ok3, e3, hok3, hkeys⟩ := loadSections_outcome lib strdup config (he2.trans he1)
      rw [if_pos rfl, e3]
      refine ⟨l3, ok3, rfl, fun hok => ⟨s, d, ?_⟩, fun h => hok3.mpr h.2.2⟩
      exact
        { gives := hgives
          privateKey := hkeys.1.trans hk2
          accepted := haccepted
          publicKey := fun h => by
            rw [hkeys.2]
            exact hsome2 h rfl
          omitted := fun h => hkeys.2.trans ((hnone2 h).2.trans hq1)
          client := hok3.mp hok }
  · rw [runStages_cons, e1]
    exact ⟨l1, false, rfl, by simp, fun h => absurd h.2.1 hnone⟩

/-- **A loaded configuration has a matching key pair if and only if no string stands under
`public-key` in a configuration that is otherwise good.** -/
theorem cryptochanConfigLoad_keyPair_iff [DecidableEq P] (lib : Libconfig σ) (b58 : Libbase58)
    (ec : Secp256k1 P) (malloc : ℕ → Bool) {zero : P}
    (hzero : ∀ k q, ec.ecPubkeyCreate k = some q → q ≠ zero) {strdup : CString → Option CString}
    (hcopy : ∀ s c, strdup s = some c → c = s) (configFilepath : CString) (config : σ) :
    CarriesKeyPair lib strdup (ecHelper b58 ec malloc) config ec zero
        (cryptochanConfigLoad lib strdup (ecHelper b58 ec malloc) configFilepath (.ok config)
          (.zero P)) ↔
      ¬ PubkeyOmitted lib strdup (ecHelper b58 ec malloc) config := by
  obtain ⟨l, ok, e, hloaded, homitted⟩ :=
    load_outcome lib (ecHelper b58 ec malloc) hcopy configFilepath config
  rw [e]
  constructor
  · intro hcarries hom
    obtain rfl := homitted hom
    obtain ⟨s, d, h⟩ := hloaded rfl
    -- the field is still zero
    have hbelongs := (hcarries.keyPair l rfl).2
    rw [CryptochanConfig.publicKeyField, h.omitted hom.1, Option.getD_none,
      not_belongs_zero hzero] at hbelongs
    exact Bool.noConfusion hbelongs
  · intro hnot
    refine ⟨?_, ?_⟩
    · rintro l' ⟨⟩
      obtain ⟨s, d, h⟩ := hloaded rfl
      obtain ⟨q, hq, hbelongs⟩ :=
        h.publicKey fun hnone => hnot ⟨hnone, ⟨s, d, h.gives⟩, h.client⟩
      rw [CryptochanConfig.HasKeyPair, CryptochanConfig.privateKeyField,
        CryptochanConfig.publicKeyField, h.privateKey, hq]
      exact ⟨decodeB58Privkey_valid h.gives.2.2, hbelongs⟩
    · rintro s' d' hgives hbad l' ⟨⟩
      obtain ⟨s, d, h⟩ := hloaded rfl
      obtain rfl := h.gives.unique hgives
      exact hbad h.accepted

/-! ### Sample configurations -/

/-- A configuration with the sample private key and these further settings. -/
def keyConfig (members : List (CString × ConfigTree)) : ConfigTree :=
  .group ((ascii "private-key",
    .string (ascii "9cfBkPsoQ2NPHYPi7b69bcQG8FKfNc33k2UfRxiPFyd8")) :: members)

/-- Its load. -/
noncomputable def loadKeyConfig (members : List (CString × ConfigTree)) :
    Option (Loading (List UInt8) × Bool) :=
  cryptochanConfigLoad ConfigTree.lookups some
    (ecHelper sampleLibbase58 sampleSecp256k1 fun _ => true) (ascii "cryptochan.conf")
    (.ok (keyConfig members)) (.zero (List UInt8))

/-- A zeroed `secp256k1_pubkey`. -/
def zeroPubkey : List UInt8 := List.replicate 64 0

theorem samplePubkey_ne_zero (k q : List UInt8) (h : sampleSecp256k1.ecPubkeyCreate k = some q) :
    q ≠ zeroPubkey := by
  rcases sampleSecp256k1_created h with rfl | rfl <;> decide +kernel

/-- The load succeeds with a zero public key. -/
def LoadsWithoutPubkey (members : List (CString × ConfigTree)) : Prop :=
  ∃ l, loadKeyConfig members = some (l, true) ∧ l.ccConfig.privateKeyField = samplePrivateKey ∧
    l.ccConfig.publicKeyField zeroPubkey = zeroPubkey

def SampleCarriesKeyPair (members : List (CString × ConfigTree)) : Prop :=
  CarriesKeyPair ConfigTree.lookups some (ecHelper sampleLibbase58 sampleSecp256k1 fun _ => true)
    (keyConfig members) sampleSecp256k1 zeroPubkey (loadKeyConfig members)

theorem LoadsWithoutPubkey.not_carries {members : List (CString × ConfigTree)}
    (h : LoadsWithoutPubkey members) : ¬ SampleCarriesKeyPair members := by
  obtain ⟨l, hl, -, hpub⟩ := h
  intro hcarries
  have hbelongs := (hcarries.keyPair l hl).2
  rw [hpub, not_belongs_zero samplePubkey_ne_zero] at hbelongs
  exact Bool.noConfusion hbelongs

/-- The loader takes the sample private key, whatever else there is. -/
theorem keyConfig_givesPrivkey (members : List (CString × ConfigTree)) : ∃ s,
    GivesPrivkey ConfigTree.lookups some (ecHelper sampleLibbase58 sampleSecp256k1 fun _ => true)
      (keyConfig members) s (samplePrivateKey, some samplePublicKey) := by
  have henc : ascii "9cfBkPsoQ2NPHYPi7b69bcQG8FKfNc33k2UfRxiPFyd8" =
      base58Encode samplePrivateKey := by decide +kernel
  have hpriv : IsPrivateKey samplePrivateKey :=
    ⟨by decide +kernel, by decide +kernel, by decide +kernel⟩
  have hdecode := decodeB58Privkey_encode sampleLibbase58_laws sampleSecp256k1_secretLaws hpriv true
  rw [← henc, if_pos rfl, sampleSecp256k1_create] at hdecode
  exact ⟨_, rfl, rfl, hdecode⟩

theorem loadsWithoutPubkey {members : List (CString × ConfigTree)}
    (hpub : ConfigTree.lookups.lookupString (keyConfig members) (ascii "public-key") = none)
    (hclient : ConfigTree.lookups.lookup (keyConfig members) (ascii "client") = none) :
    LoadsWithoutPubkey members := by
  obtain ⟨s, hgives⟩ := keyConfig_givesPrivkey members
  obtain ⟨l, ok, e, hloaded, homitted⟩ := load_outcome ConfigTree.lookups
    (ecHelper sampleLibbase58 sampleSecp256k1 fun _ => true)
    (fun s c h => (Option.some.inj h).symm) (ascii "cryptochan.conf") (keyConfig members)
  obtain rfl := homitted ⟨hpub, ⟨s, _, hgives⟩, by simp [hclient]⟩
  obtain ⟨s', d, h⟩ := hloaded rfl
  obtain rfl := hgives.unique h.gives
  refine ⟨l, e, ?_, ?_⟩
  · rw [CryptochanConfig.privateKeyField, h.privateKey, Option.getD_some]
  · rw [CryptochanConfig.publicKeyField, h.omitted hpub, Option.getD_none]

/-- Without a `public-key`, and with one that is no string. -/
theorem cryptochanConfigLoad_pubkeyOmitted :
    (LoadsWithoutPubkey [] ∧ ¬ SampleCarriesKeyPair []) ∧
      LoadsWithoutPubkey [(ascii "public-key", .int 5)] ∧
      ¬ SampleCarriesKeyPair [(ascii "public-key", .int 5)] := by
  have hnone : LoadsWithoutPubkey [] := loadsWithoutPubkey (by decide +kernel) (by decide +kernel)
  have hint : LoadsWithoutPubkey [(ascii "public-key", .int 5)] :=
    loadsWithoutPubkey (by decide +kernel) (by decide +kernel)
  exact ⟨⟨hnone, hnone.not_carries⟩, hint, hint.not_carries⟩

/-- The public key of the sample private key. -/
def samplePubkeySetting : CString × ConfigTree :=
  (ascii "public-key", .string (ascii "fAZD9GEZLsiub6WkiUu2WBvUcpMu3ffZf33DZn2zJ1gp"))

theorem loadKeyConfig_bothKeys : ∃ l, loadKeyConfig [samplePubkeySetting] = some (l, true) := by
  have henc : ascii "fAZD9GEZLsiub6WkiUu2WBvUcpMu3ffZf33DZn2zJ1gp" =
      base58Encode samplePublicKey := by decide +kernel
  have hkeys : KeysAccepted ConfigTree.lookups
      (ecHelper sampleLibbase58 sampleSecp256k1 fun _ => true)
      (keyConfig [samplePubkeySetting]) := by
    obtain ⟨s, hs, -, hd⟩ := keyConfig_givesPrivkey [samplePubkeySetting]
    refine ⟨s, _, hs, hd, ?_⟩
    intro t ht
    obtain rfl := Option.some.inj ht
    have hdecode : decodeB58Pubkey sampleLibbase58 sampleSecp256k1 (base58Encode samplePublicKey) =
        .ok samplePublicKey :=
      decodeB58Pubkey_encode sampleLibbase58_laws rfl samplePublicKey_isCompressedPoint.head
        (if_pos samplePublicKey_isCompressedPoint)
    rw [← henc] at hdecode
    exact ⟨samplePublicKey, hdecode, by decide +kernel⟩
  rcases loadKeys ConfigTree.lookups _ (fun _ => rfl) (ascii "cryptochan.conf")
    (keyConfig [samplePubkeySetting]) ⟨.zero (List UInt8), none, none, []⟩
    [loadClient ConfigTree.lookups some (keyConfig [samplePubkeySetting]),
      loadServer ConfigTree.lookups some (keyConfig [samplePubkeySetting])] with
    ⟨-, l, e, -⟩ | ⟨hbad, -⟩
  · exact ⟨l, e⟩
  · exact absurd hkeys hbad

theorem cryptochanConfigLoad_keyPair_iff_bothKeys :
    ∃ l, loadKeyConfig [samplePubkeySetting] = some (l, true) ∧
      l.ccConfig.HasKeyPair zeroPubkey sampleSecp256k1 := by
  obtain ⟨l, hl⟩ := loadKeyConfig_bothKeys
  refine ⟨l, hl, ((cryptochanConfigLoad_keyPair_iff ConfigTree.lookups sampleLibbase58
    sampleSecp256k1 (fun _ => true) samplePubkey_ne_zero (fun s c h => (Option.some.inj h).symm)
    (ascii "cryptochan.conf") (keyConfig [samplePubkeySetting])).mpr ?_).keyPair l hl⟩
  rintro ⟨hnone, -⟩
  exact absurd hnone (by decide +kernel)

end Cryptochan
