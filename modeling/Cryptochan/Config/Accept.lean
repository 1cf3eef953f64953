import Cryptochan.Config.Load

/-!
# Cryptochan.Config.Accept — which configurations are accepted

`Accepted` is the rule: the keys are good, and a section that is there is complete.  The loader
follows it except that it does not notice an incomplete `server` section
(`cryptochanConfigLoad_exact_iff`): `cryptochan_config_parse_server` describes the error and still
returns `true`.
-/

namespace Cryptochan

variable {σ P : Type} (lib : Libconfig σ) (keys : KeyFunctions P)

/-! ### The rule -/

/-- The address configured under `name`, if it is complete. -/
def configuredAddr (setting : σ) (name : CString) : Option SockAddr := do
  let nest ← lib.lookup setting name
  let host ← lib.lookupString nest (ascii "host")
  let port ← lib.lookupInt nest (ascii "port")
  some ⟨some host, port⟩

/-- A section has both addresses. -/
def SectionComplete (setting : σ) : Prop :=
  (configuredAddr lib setting (ascii "listen")).isSome ∧
    (configuredAddr lib setting (ascii "target")).isSome

/-- The public key, if given, belongs to the private key `k`. -/
def PubkeyAccepted (config : σ) (k : List UInt8) : Prop :=
  ∀ t, lib.lookupString config (ascii "public-key") = some t →
    ∃ q, keys.decodeB58Pubkey t = .ok q ∧ keys.checkPubkeyBelongsToPrivkey k q = true

def KeysAccepted (config : σ) : Prop :=
  ∃ s d, lib.lookupString config (ascii "private-key") = some s ∧
    keys.decodeB58Privkey s = .ok d ∧ PubkeyAccepted lib keys config d.1

/-- A section is absent or complete. -/
def SectionAccepted (config : σ) (name : CString) : Prop :=
  ∀ setting, lib.lookup config name = some setting → SectionComplete lib setting

def Accepted (config : σ) : Prop :=
  KeysAccepted lib keys config ∧ SectionAccepted lib config (ascii "client") ∧
    SectionAccepted lib config (ascii "server")

/-- The addresses of a section are the configured ones. -/
def ConfigSection.Filled (sec : ConfigSection) (config : σ) (name : CString) : Prop :=
  ∃ setting, lib.lookup config name = some setting ∧
    configuredAddr lib setting (ascii "listen") = some sec.listen ∧
    configuredAddr lib setting (ascii "target") = some sec.target

/-- The outcome `r` of a load is exact: it is `true` for the accepted configurations only, and then
every section marked present is filled. -/
structure ExactOutcome (config : σ) (r : Option (Loading P × Bool)) : Prop where
  returns : r.isSome
  accepts : (∃ l, r = some (l, true)) ↔ Accepted lib keys config
  client : ∀ l, r = some (l, true) → l.ccConfig.client.present = true →
    l.ccConfig.client.Filled lib config (ascii "client")
  server : ∀ l, r = some (l, true) → l.ccConfig.server.present = true →
    l.ccConfig.server.Filled lib config (ascii "server")

/-- The server section alone is at fault. -/
def OnlyServerIncomplete (config : σ) : Prop :=
  KeysAccepted lib keys config ∧ SectionAccepted lib config (ascii "client") ∧
    ¬ SectionAccepted lib config (ascii "server")

/-! ### Addresses and sections -/

section Parse

variable {lib} {strdup : CString → Option CString} (hdup : ∀ s, strdup s = some s)
include hdup

theorem parseSockAddr_of_configured {root : σ} {name : CString} {addr : SockAddr}
    (h : configuredAddr lib root name = some addr) (sa : SockAddr) :
    cryptochanConfigParseSockAddr lib strdup root name sa none = some (addr, none, true) := by
  obtain ⟨nest, hnest, h⟩ := Option.bind_eq_some_iff.mp h
  obtain ⟨host, hhost, h⟩ := Option.bind_eq_some_iff.mp h
  obtain ⟨port, hport, h⟩ := Option.bind_eq_some_iff.mp h
  obtain rfl := Option.some.inj h
  simp [cryptochanConfigParseSockAddr, assureErrorDescEmpty, hnest, hhost, hport, hdup]

theorem parseSockAddr_of_none {root : σ} {name : CString}
    (h : configuredAddr lib root name = none) (sa : SockAddr) :
    ∃ sa' desc, cryptochanConfigParseSockAddr lib strdup root name sa none =
      some (sa', some desc, false) := by
  unfold cryptochanConfigParseSockAddr
  simp only [assureErrorDescEmpty, Option.isSome_none, Bool.false_eq_true, if_false,
    Option.bind_eq_bind, Option.bind_some]
  cases hnest : lib.lookup root name with
  | none => exact ⟨_, _, rfl⟩
  | some nest =>
    dsimp only
    cases hhost : lib.lookupString nest (ascii "host") with
    | none => exact ⟨_, _, rfl⟩
    | some host =>
      dsimp only
      rw [hdup]
      dsimp only
      cases hport : lib.lookupInt nest (ascii "port") with
      | some port => simp [configuredAddr, hnest, hhost, hport] at h
      | none =>
        dsimp only
        cases lib.lookup nest (ascii "port") <;> exact ⟨_, _, rfl⟩

theorem parseAddresses_of_complete (kind : CString) {setting : σ} (h : SectionComplete lib setting)
    (sec : ConfigSection) : ∃ listen target,
      configuredAddr lib setting (ascii "listen") = some listen ∧
      configuredAddr lib setting (ascii "target") = some target ∧
      parseAddresses lib strdup kind setting sec none =
        some ({ sec with listen, target }, none, true) := by
  obtain ⟨listen, hl⟩ := Option.isSome_iff_exists.mp h.1
  obtain ⟨target, ht⟩ := Option.isSome_iff_exists.mp h.2
  refine ⟨listen, target, hl, ht, ?_⟩
  simp [parseAddresses, assureErrorDescEmpty, parseSockAddr_of_configured hdup hl,
    parseSockAddr_of_configured hdup ht]

theorem parseAddresses_of_incomplete (kind : CString) {setting : σ}
    (h : ¬ SectionComplete lib setting) (sec : ConfigSection) :
    ∃ sec' desc, parseAddresses lib strdup kind setting sec none = some (sec', some desc, false) ∧
      sec'.present = sec.present := by
  cases hl : configuredAddr lib setting (ascii "listen") with
  | none =>
    obtain ⟨sa, desc, e⟩ := parseSockAddr_of_none hdup hl sec.listen
    refine ⟨{ sec with listen := sa }, ascii "bad `" ++ kind ++ ascii "' config: " ++ desc, ?_, rfl⟩
    simp [parseAddresses, assureErrorDescEmpty, e]
  | some listen =>
    cases ht : configuredAddr lib setting (ascii "target") with
    | none =>
      obtain ⟨sa, desc, e⟩ := parseSockAddr_of_none hdup ht sec.target
      refine ⟨{ sec with listen, target := sa }, ascii "bad `" ++ kind ++ ascii "' config: " ++ desc,
        ?_, rfl⟩
      simp [parseAddresses, assureErrorDescEmpty, parseSockAddr_of_configured hdup hl, e]
    | some target => exact absurd ⟨by simp [hl], by simp [ht]⟩ h

end Parse

/-! ### The stages -/

theorem runStages_cons (f : LoadStage P) (fs : List (LoadStage P)) (l : Loading P) :
    runStages (f :: fs) l = (f l).bind fun r => if r.2 then runStages fs r.1 else some (r.1, false) :=
  rfl

section Stages

variable {lib keys} {strdup : CString → Option CString} (hdup : ∀ s, strdup s = some s)
  (path : CString) {config : σ} {l : Loading P}
include hdup

theorem loadPrivateKey_ok {s : CString} {d : List UInt8 × Option P}
    (hs : lib.lookupString config (ascii "private-key") = some s)
    (hd : keys.decodeB58Privkey s = .ok d) :
    ∃ l', loadPrivateKey lib strdup keys path config l = some (l', true) ∧
      l'.ccConfig.privateKeyData = some d.1 ∧ l'.ccConfig.client = l.ccConfig.client ∧
      l'.ccConfig.server = l.ccConfig.server ∧ l'.errorDesc = l.errorDesc := by
  unfold loadPrivateKey
  simp only [hs, hdup, hd]
  exact ⟨_, rfl, rfl, rfl, rfl, rfl⟩

theorem loadPrivateKey_bad
    (h : ¬ ∃ s d, lib.lookupString config (ascii "private-key") = some s ∧
      keys.decodeB58Privkey s = .ok d) :
    ∃ l', loadPrivateKey lib strdup keys path config l = some (l', false) := by
  unfold loadPrivateKey
  cases hs : lib.lookupString config (ascii "private-key") with
  | none => exact ⟨_, rfl⟩
  | some s =>
    simp only [hdup]
    cases hd : keys.decodeB58Privkey s with
    | ok d => exact absurd ⟨s, d, hs, hd⟩ h
    | error desc => exact ⟨_, rfl⟩

theorem loadPublicKey_ok {k : List UInt8} (hk : l.ccConfig.privateKeyData = some k)
    (h : PubkeyAccepted lib keys config k) :
    ∃ l', loadPublicKey lib strdup keys path config l = some (l', true) ∧
      l'.ccConfig.client = l.ccConfig.client ∧ l'.ccConfig.server = l.ccConfig.server ∧
      l'.errorDesc = l.errorDesc := by
  unfold loadPublicKey
  cases ht : lib.lookupString config (ascii "public-key") with
  | none => exact ⟨_, rfl, rfl, rfl, rfl⟩
  | some t =>
    obtain ⟨q, hq, hb⟩ := h t ht
    simp only [hdup, hq, hk, Option.getD_some, hb, if_true]
    exact ⟨_, rfl, rfl, rfl, rfl⟩

theorem loadPublicKey_bad {k : List UInt8} (hk : l.ccConfig.privateKeyData = some k)
    (h : ¬ PubkeyAccepted lib keys config k) :
    ∃ l', loadPublicKey lib strdup keys path config l = some (l', false) := by
  unfold loadPublicKey
  cases ht : lib.lookupString config (ascii "public-key") with
  | none =>
    refine absurd ?_ h
    intro t ht'
    rw [ht] at ht'
    exact absurd ht' (by simp)
  | some t =>
    simp only [hdup]
    cases hq : keys.decodeB58Pubkey t with
    | error desc => exact ⟨_, rfl⟩
    | ok q =>
      simp only [hk, Option.getD_some]
      split_ifs with hb
      · refine absurd ?_ h
        intro t' ht'
        obtain rfl : t = t' := Option.some.inj (ht.symm.trans ht')
        exact ⟨q, hq, hb⟩
      · exact ⟨_, rfl⟩

omit hdup in
/-- A section that is absent or complete. -/
theorem loadSection_accepted (name : CString) (get : CryptochanConfig P → ConfigSection)
    (set : CryptochanConfig P → ConfigSection → CryptochanConfig P)
    (parse : σ → ConfigSection → Option CString → Option (ConfigSection × Option CString × Bool))
    (hget : ∀ cc sec, get (set cc sec) = sec)
    (hparse : ∀ setting sec, SectionComplete lib setting → ∃ listen target,
      configuredAddr lib setting (ascii "listen") = some listen ∧
      configuredAddr lib setting (ascii "target") = some target ∧
      parse setting sec none = some ({ sec with listen, target }, none, true))
    (h : SectionAccepted lib config name) (he : l.errorDesc = none)
    (hp : (get l.ccConfig).present = false) :
    ∃ l', loadSection lib config name get set parse l = some (l', true) ∧ l'.errorDesc = none ∧
      (l'.ccConfig = l.ccConfig ∨ ∃ sec, l'.ccConfig = set l.ccConfig sec) ∧
      ((get l'.ccConfig).present = true → (get l'.ccConfig).Filled lib config name) := by
  unfold loadSection
  cases hs : lib.lookup config name with
  | none =>
    refine ⟨l, rfl, he, Or.inl rfl, ?_⟩
    intro hpres
    rw [hp] at hpres
    exact absurd hpres (by simp)
  | some setting =>
    obtain ⟨listen, target, hl, ht, e⟩ :=
      hparse setting { get l.ccConfig with present := true } (h setting hs)
    simp only [he, e, Option.bind_eq_bind, Option.bind_some, if_true]
    refine ⟨_, rfl, rfl, Or.inr ⟨_, rfl⟩, ?_⟩
    intro _
    rw [hget]
    exact ⟨setting, hs, hl, ht⟩

theorem loadClient_accepted (h : SectionAccepted lib config (ascii "client"))
    (he : l.errorDesc = none) (hp : l.ccConfig.client.present = false) :
    ∃ l', loadClient lib strdup config l = some (l', true) ∧ l'.errorDesc = none ∧
      l'.ccConfig.server = l.ccConfig.server ∧
      (l'.ccConfig.client.present = true → l'.ccConfig.client.Filled lib config (ascii "client")) := by
  obtain ⟨l', e, he', hcc, hfill⟩ := loadSection_accepted (ascii "client") (·.client)
    (fun cc client => { cc with client }) (cryptochanConfigParseClient lib strdup) (fun _ _ => rfl)
    (fun setting sec hc => parseAddresses_of_complete hdup _ hc sec) h he hp
  refine ⟨l', e, he', ?_, hfill⟩
  rcases hcc with hcc | ⟨sec, hcc⟩ <;> rw [hcc]

theorem loadServer_accepted (h : SectionAccepted lib config (ascii "server"))
    (he : l.errorDesc = none) (hp : l.ccConfig.server.present = false) :
    ∃ l', loadServer lib strdup config l = some (l', true) ∧
      l'.ccConfig.client = l.ccConfig.client ∧
      (l'.ccConfig.server.present = true → l'.ccConfig.server.Filled lib config (ascii "server")) := by
  obtain ⟨l', e, -, hcc, hfill⟩ := loadSection_accepted (ascii "server") (·.server)
    (fun cc server => { cc with server }) (cryptochanConfigParseServer lib strdup) (fun _ _ => rfl)
    (fun setting sec hc => by
      obtain ⟨listen, target, hl, ht, e⟩ := parseAddresses_of_complete hdup (ascii "server") hc sec
      exact ⟨listen, target, hl, ht, by simp [cryptochanConfigParseServer, e]⟩) h he hp
  refine ⟨l', e, ?_, hfill⟩
  rcases hcc with hcc | ⟨sec, hcc⟩ <;> rw [hcc]

/-- An incomplete `client` section ends the load. -/
theorem loadClient_refused (h : ¬ SectionAccepted lib config (ascii "client"))
    (he : l.errorDesc = none) : ∃ l', loadClient lib strdup config l = some (l', false) := by
  obtain ⟨setting, hs, hc⟩ : ∃ setting, _ ∧ ¬ SectionComplete lib setting := by
    simpa only [SectionAccepted, not_forall, exists_prop] using h
  obtain ⟨sec, desc, e, -⟩ := parseAddresses_of_incomplete hdup (ascii "client") hc
    { l.ccConfig.client with present := true }
  unfold loadClient loadSection cryptochanConfigParseClient
  simp only [hs, he, e, Option.bind_eq_bind, Option.bind_some]
  exact ⟨_, rfl⟩

/-- An incomplete `server` section does not. -/
theorem loadServer_refused (h : ¬ SectionAccepted lib config (ascii "server"))
    (he : l.errorDesc = none) : ∃ l', loadServer lib strdup config l = some (l', true) := by
  obtain ⟨setting, hs, hc⟩ : ∃ setting, _ ∧ ¬ SectionComplete lib setting := by
    simpa only [SectionAccepted, not_forall, exists_prop] using h
  obtain ⟨sec, desc, e, -⟩ := parseAddresses_of_incomplete hdup (ascii "server") hc
    { l.ccConfig.server with present := true }
  unfold loadServer loadSection cryptochanConfigParseServer
  simp only [hs, he, e, Option.bind_eq_bind, Option.bind_some, if_true]
  exact ⟨_, rfl⟩

end Stages

/-- Both key stages together. -/
theorem loadKeys (lib : Libconfig σ) (keys : KeyFunctions P) {strdup : CString → Option CString}
    (hdup : ∀ s, strdup s = some s) (path : CString) (config : σ) (l : Loading P)
    (fs : List (LoadStage P)) :
    (KeysAccepted lib keys config ∧ ∃ l',
      runStages (loadPrivateKey lib strdup keys path config ::
        loadPublicKey lib strdup keys path config :: fs) l = runStages fs l' ∧
      l'.ccConfig.client = l.ccConfig.client ∧ l'.ccConfig.server = l.ccConfig.server ∧
      l'.errorDesc = l.errorDesc) ∨
    (¬ KeysAccepted lib keys config ∧ ∃ l',
      runStages (loadPrivateKey lib strdup keys path config ::
        loadPublicKey lib strdup keys path config :: fs) l = some (l', false)) := by
  by_cases hpriv : ∃ s d, lib.lookupString config (ascii "private-key") = some s ∧
      keys.decodeB58Privkey s = .ok d
  · obtain ⟨s, d, hs, hd⟩ := hpriv
    obtain ⟨l1, e1, hk, hc1, hs1, he1⟩ := loadPrivateKey_ok hdup path (l := l) hs hd
    by_cases hpub : PubkeyAccepted lib keys config d.1
    · obtain ⟨l2, e2, hc2, hs2, he2⟩ := loadPublicKey_ok hdup path hk hpub
      refine Or.inl ⟨⟨s, d, hs, hd, hpub⟩, l2, ?_, hc2.trans hc1, hs2.trans hs1, he2.trans he1⟩
      simp [runStages_cons, e1, e2]
    · obtain ⟨l2, e2⟩ := loadPublicKey_bad hdup path hk hpub
      refine Or.inr ⟨?_, l2, by simp [runStages_cons, e1, e2]⟩
      rintro ⟨s', d', hs', hd', hp'⟩
      obtain rfl : s = s' := Option.some.inj (hs.symm.trans hs')
      obtain rfl : d = d' := Except.ok.inj (hd.symm.trans hd')
      exact hpub hp'
  · obtain ⟨l1, e1⟩ := loadPrivateKey_bad hdup path (l := l) hpriv
    refine Or.inr ⟨?_, l1, by simp [runStages_cons, e1]⟩
    rintro ⟨s, d, hs, hd, -⟩
    exact hpriv ⟨s, d, hs, hd⟩

/-! ### The outcome -/

/-- A refused configuration with outcome `false` is judged exactly. -/
theorem exactOutcome_false {config : σ} {l : Loading P} (h : ¬ Accepted lib keys config) :
    ExactOutcome lib keys config (some (l, false)) := by
  refine ⟨rfl, iff_of_false ?_ h, ?_, ?_⟩
  · rintro ⟨l', e⟩
    simp at e
  · intro l' e
    simp at e
  · intro l' e
    simp at e

/-- **Acceptance is exact if and only if it is not the `server` section alone that is incomplete.** -/
theorem cryptochanConfigLoad_exact_iff (strdup : CString → Option CString)
    (hdup : ∀ s, strdup s = some s) (configFilepath : CString) (config : σ) :
    ExactOutcome lib keys config
        (cryptochanConfigLoad lib strdup keys configFilepath (.ok config) (.zero P)) ↔
      ¬ OnlyServerIncomplete lib keys config := by
  simp only [cryptochanConfigLoad]
  rcases loadKeys lib keys hdup configFilepath config ⟨.zero P, none, none, []⟩
    [loadClient lib strdup config, loadServer lib strdup config] with
    ⟨hk, l1, e1, hc1, hs1, he1⟩ | ⟨hk, l1, e1⟩
  · rw [e1]
    by_cases hc : SectionAccepted lib config (ascii "client")
    · obtain ⟨l2, e2, he2, hs2, hf2⟩ := loadClient_accepted hdup hc he1 (by rw [hc1]; rfl)
      by_cases hs : SectionAccepted lib config (ascii "server")
      · obtain ⟨l3, e3, hc3, hf3⟩ := loadServer_accepted hdup hs he2 (by rw [hs2, hs1]; rfl)
        have e : runStages [loadClient lib strdup config, loadServer lib strdup config] l1 =
          some (l3, true) := by simp [e2, e3, runStages]
        rw [e]
        refine iff_of_true ⟨rfl, iff_of_true ⟨l3, rfl⟩ ⟨hk, hc, hs⟩, ?_, ?_⟩ fun h => h.2.2 hs
        · rintro l ⟨⟩ hp
          rw [hc3] at hp ⊢
          exact hf2 hp
        · rintro l ⟨⟩ hp
          exact hf3 hp
      · obtain ⟨l3, e3⟩ := loadServer_refused hdup hs he2
        have e : runStages [loadClient lib strdup config, loadServer lib strdup config] l1 =
          some (l3, true) := by simp [e2, e3, runStages]
        rw [e]
        refine iff_of_false ?_ fun h => h ⟨hk, hc, hs⟩
        intro h
        exact hs (h.accepts.mp ⟨l3, rfl⟩).2.2
    · obtain ⟨l2, e2⟩ := loadClient_refused hdup hc he1
      have e : runStages [loadClient lib strdup config, loadServer lib strdup config] l1 =
        some (l2, false) := by simp [runStages_cons, e2]
      rw [e]
      exact iff_of_true (exactOutcome_false lib keys fun h => hc h.2.1) fun h => hc h.2.1
  · rw [e1]
    exact iff_of_true (exactOutcome_false lib keys fun h => hk h.1) fun h => hk h.1

/-! ### A configuration without a target -/

/-- Settings as a tree. -/
inductive ConfigTree
  | int (value : ℤ)
  | string (value : CString)
  | group (members : List (CString × ConfigTree))

namespace ConfigTree

def lookup : ConfigTree → CString → Option ConfigTree
  | group members, name => (members.find? (·.1 = name)).map (·.2)
  | _, _ => none

def lookups : Libconfig ConfigTree where
  lookup := lookup
  lookupString setting name := match setting.lookup name with
    | some (string value) => some value
    | _ => none
  lookupInt setting name := match setting.lookup name with
    | some (int value) => some value
    | _ => none

def addr (host : String) (port : ℤ) : ConfigTree :=
  group [(ascii "host", string (ascii host)), (ascii "port", int port)]

end ConfigTree

/-- The private key of the sample configuration file, the only one accepted here. -/
def samplePrivkey : CString := ascii "8CUF4ZZ2hgPCzmsrzGVWiR7EhzmuSBV4cZUQ1GPcYYhK"

def sampleKeys : KeyFunctions Unit where
  decodeB58Privkey s := if s = samplePrivkey then .ok ([], some ()) else .error (ascii "bad base58")
  decodeB58Pubkey _ := .error (ascii "bad base58")
  checkPubkeyBelongsToPrivkey _ _ := false
  pubkeyToB58encForm _ := none

/-- A `server` section with these members. -/
def serverConfig (members : List (CString × ConfigTree)) : ConfigTree :=
  .group [(ascii "private-key", .string samplePrivkey), (ascii "server", .group members)]

def noTarget : ConfigTree := serverConfig [(ascii "listen", .addr "0.0.0.0" 11133)]

theorem cryptochanConfigLoad_noTarget :
    (∃ l, cryptochanConfigLoad ConfigTree.lookups some sampleKeys (ascii "cryptochan.conf")
        (.ok noTarget) (.zero Unit) = some (l, true) ∧ l.ccConfig.server.present = true ∧
        l.ccConfig.server.target.host = none) ∧
      ¬ ExactOutcome ConfigTree.lookups sampleKeys noTarget
        (cryptochanConfigLoad ConfigTree.lookups some sampleKeys (ascii "cryptochan.conf")
          (.ok noTarget) (.zero Unit)) := by
  have h : (cryptochanConfigLoad ConfigTree.lookups some sampleKeys (ascii "cryptochan.conf")
      (.ok noTarget) (.zero Unit)).map (fun r =>
        (r.2, r.1.ccConfig.server.present, r.1.ccConfig.server.target.host)) =
      some (true, true, none) := by decide +kernel
  obtain ⟨⟨l, ok⟩, hl, he⟩ := Option.map_eq_some_iff.mp h
  simp only [Prod.mk.injEq] at he
  obtain ⟨rfl, hpres, hhost⟩ := he
  refine ⟨⟨l, hl, hpres, hhost⟩, ?_⟩
  intro hex
  have hacc := (hex.accepts.mp ⟨l, hl⟩).2.2
  have hserver : ConfigTree.lookups.lookup noTarget (ascii "server") =
      some (.group [(ascii "listen", .addr "0.0.0.0" 11133)]) := rfl
  have htarget : configuredAddr ConfigTree.lookups
      (.group [(ascii "listen", .addr "0.0.0.0" 11133)]) (ascii "target") = none := rfl
  have hc := (hacc _ hserver).2
  rw [htarget] at hc
  exact absurd hc (by simp)

def withTarget : ConfigTree :=
  serverConfig [(ascii "listen", .addr "0.0.0.0" 11133), (ascii "target", .addr "localhost" 1194)]

theorem cryptochanConfigLoad_exact_iff_withTarget :
    ExactOutcome ConfigTree.lookups sampleKeys withTarget
        (cryptochanConfigLoad ConfigTree.lookups some sampleKeys (ascii "cryptochan.conf")
          (.ok withTarget) (.zero Unit)) ↔
      ¬ OnlyServerIncomplete ConfigTree.lookups sampleKeys withTarget :=
  cryptochanConfigLoad_exact_iff ConfigTree.lookups sampleKeys some (fun _ => rfl)
    (ascii "cryptochan.conf") withTarget

end Cryptochan
