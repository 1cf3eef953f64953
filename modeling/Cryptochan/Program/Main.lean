import Cryptochan.Config.KeyPair
import Cryptochan.Keys.Draw
import Cryptochan.Program.Arguments
import Cryptochan.Program.Dispatcher

/-!
# Cryptochan.Program.Main — the program

`main` over everything below it.  The libraries, the file, the kernel and what stands in uninitialised
memory are a `Host`.

Every run ends by an exit, and `main_succeeds_iff` says when the exit status is `EXIT_SUCCESS`.  argp
ends the process with it when asked for help (`ShowsHelp`).  For the mode `server` that is: the keys
are good, the `client` section is complete if it is there, there is a `server` section, complete or
not, and what was read of its `listen` address can be bound.
-/

namespace Cryptochan

/-- `ARGP_ERR_EXIT_STATUS`. -/
def exUsage : ℕ := 64

/-- `argp_program_version`. -/
def argpProgramVersion : CString := ascii "cryptochan 1.0.0"

/-- What the program gets from outside.  `argpText` is what argp makes of its tables for `--help` and
`--usage`, and its words on an option it cannot make sense of; `readFile` is `config_read_file`; `stack`
and `cntx` are the uninitialised locals of `keygen_display` and of `run_server`. -/
structure Host (σ P : Type) where
  argpText : ArgpExit → CString
  b58 : Libbase58
  ec : Secp256k1 P
  malloc : ℕ → Bool
  strdup : CString → Option CString
  lib : Libconfig σ
  readFile : CString → Except (ℕ × CString) σ
  random : HostRandom
  stack : Region
  net : Net
  cntx : DispatcherContext

/-- How a run of the program ends: with an exit, or by `abort`, or not at all. -/
inductive ProgramEnd
  | exit (status : ℕ) (stdout : CString) (process : Process)
  | abort
  | never

section Main

variable {σ P : Type} [DecidableEq P] (host : Host σ P)

def Host.keys : KeyFunctions P := ecHelper host.b58 host.ec host.malloc

/-- The part of `main` behind the mode `keygen`. -/
def mainWithConfig (mode : CryptochanMode) (configFile : CString) : ProgramEnd :=
  match cryptochanConfigLoad host.lib host.strdup host.keys configFile (host.readFile configFile)
      (.zero P) with
  | none => .abort
  | some (l, loaded) =>
    let p : Process := ⟨[], l.stderr⟩
    if loaded = false then
      .exit exitFailure [] (p.complain (ascii "Could not load config: `" ++ configFile ++
        ascii "'\nExiting.\n"))
    else match mode with
    | .server =>
      if l.ccConfig.server.present = false then
        .exit exitFailure [] (p.complain (ascii "Cannot run as SERVER: config `" ++ configFile ++
          ascii "': missing `server'.\n"))
      else
        let (p, status) := runServer host.net host.cntx l.ccConfig p
        .exit status [] p
    | .client =>
      if l.ccConfig.client.present = false then
        .exit exitFailure [] (p.complain (ascii "Cannot run as CLIENT: config `" ++ configFile ++
          ascii "': missing `client'.\n"))
      else
        let (p, status) := runClient l.ccConfig p
        .exit status [] p
    -- after "Could not determine MODE. Aborting."
    | _ => .abort

/-- The exit of argp. -/
def Host.argpExit : ArgpExit → ProgramEnd
  | .error msg => .exit exUsage [] ⟨[], [msg]⟩
  | .invalid => .exit exUsage [] ⟨[], [host.argpText .invalid]⟩
  | .help => .exit exitSuccess (host.argpText .help) ⟨[], []⟩
  | .usage => .exit exitSuccess (host.argpText .usage) ⟨[], []⟩
  | .version => .exit exitSuccess (argpProgramVersion ++ ascii "\n") ⟨[], []⟩

/-- `main`, for the keys that argp makes of the command line. -/
def main (argv : List ArgpKey) : ProgramEnd :=
  match argpParse argv ⟨.none, none⟩ false with
  | .error e => host.argpExit e
  | .ok (arguments, doUsePrng) =>
    if arguments.mode = .keygen then
      match keygenRun host.b58 host.ec host.malloc doUsePrng host.random host.stack 32 with
      | none => .never
      | some (printed, out) =>
        .exit (if out.success then exitSuccess else exitFailure) out.file
          ⟨[], printed ++ [out.stderr]⟩
    else mainWithConfig host arguments.mode (arguments.configFile.getD [])

/-! ### Success -/

/-- The loader's address: what is missing is left at zero. -/
def readAddr (lib : Libconfig σ) (setting : σ) (name : CString) : SockAddr :=
  match lib.lookup setting name with
  | none => ⟨none, 0⟩
  | some nest =>
    match lib.lookupString nest (ascii "host") with
    | none => ⟨none, 0⟩
    | some hostName => ⟨some hostName, (lib.lookupInt nest (ascii "port")).getD 0⟩

/-- argp was asked for its help, its usage or the version. -/
def ArgpExit.Shows : ArgpExit → Prop
  | .help | .usage | .version => True
  | .error _ | .invalid => False

/-- An option asks argp to show something; before it there stands no other one that ends the process,
and no word, or one that is a mode. -/
def ShowsHelp (keys : List ArgpKey) : Prop :=
  ∃ before key rest e, keys = before ++ key :: rest ∧ (∀ k ∈ before, k.exits = none) ∧
    key.exits = some e ∧ e.Shows ∧
    (words before = [] ∨ ∃ mode, selected (words before) = .ok mode)

/-- There are 32 random bytes other than zeros. -/
def Host.Generates (doUsePrng : Bool) : Prop :=
  doUsePrng = true ∨ ∃ n, (∀ i < n, 0 < host.random.answer 32 i) ∧
    (host.random.drawn 32 n).length = 32 ∧ host.random.drawn 32 n ≠ List.replicate 32 0

/-- A configuration that `server` takes, with the address it binds. -/
def Host.Configured (config : σ) (setting : σ) : Prop :=
  KeysAccepted host.lib host.keys config ∧ SectionAccepted host.lib config (ascii "client") ∧
    host.lib.lookup config (ascii "server") = some setting

def Host.Serves (configFile : CString) : Prop :=
  ∃ config setting, host.readFile configFile = .ok config ∧ host.Configured config setting ∧
    host.net.Serves (readAddr host.lib setting (ascii "listen"))

end Main

/-! ### What the loader makes of the `server` section -/

section Server

variable {σ P : Type} (lib : Libconfig σ) {strdup : CString → Option CString}
  (hdup : ∀ s, strdup s = some s)
include hdup

theorem parseSockAddr_readAddr (root : σ) (name : CString) : ∃ desc ok,
    cryptochanConfigParseSockAddr lib strdup root name ⟨none, 0⟩ none =
      some (readAddr lib root name, desc, ok) ∧ (ok = true → desc = none) := by
  unfold cryptochanConfigParseSockAddr readAddr
  simp only [assureErrorDescEmpty, Option.isSome_none, Bool.false_eq_true, if_false,
    Option.bind_eq_bind, Option.bind_some]
  cases lib.lookup root name with
  | none => exact ⟨_, _, rfl, by simp⟩
  | some nest =>
    dsimp only
    cases lib.lookupString nest (ascii "host") with
    | none => exact ⟨_, _, rfl, by simp⟩
    | some hostName =>
      simp only [hdup]
      cases lib.lookupInt nest (ascii "port") with
      | some port => exact ⟨_, _, rfl, by simp⟩
      | none =>
        dsimp only
        cases lib.lookup nest (ascii "port") with
        | none => exact ⟨_, _, rfl, by simp⟩
        | some _ => exact ⟨_, _, rfl, by simp⟩

theorem parseAddresses_listen (kind : CString) (setting : σ) (sec : ConfigSection)
    (hsec : sec.listen = ⟨none, 0⟩) : ∃ sec' desc ok,
      parseAddresses lib strdup kind setting sec none = some (sec', desc, ok) ∧
      sec'.present = sec.present ∧ sec'.listen = readAddr lib setting (ascii "listen") := by
  obtain ⟨desc, ok, e, hdesc⟩ := parseSockAddr_readAddr lib hdup setting (ascii "listen")
  unfold parseAddresses
  simp only [assureErrorDescEmpty, Option.isSome_none, Bool.false_eq_true, if_false,
    Option.bind_eq_bind, Option.bind_some, hsec, e]
  cases ok with
  | false => exact ⟨_, _, _, rfl, rfl, rfl⟩
  | true =>
    obtain ⟨sa, desc', ok', e', -⟩ :=
      parseSockAddr_outcome lib strdup setting (ascii "target") sec.target
    simp only [hdesc rfl, if_true, e', Option.bind_some]
    cases ok' with
    | false => exact ⟨_, _, _, rfl, rfl, rfl⟩
    | true => exact ⟨_, _, _, rfl, rfl, rfl⟩

/-- The `server` section is taken as far as it could be read. -/
theorem loadServer_listen (config : σ) {l : Loading P} (he : l.errorDesc = none)
    (hl : l.ccConfig.server = (CryptochanConfig.zero P).server) :
    ∃ l', loadServer lib strdup config l = some (l', true) ∧
      (lib.lookup config (ascii "server") = none → l'.ccConfig.server.present = false) ∧
      ∀ setting, lib.lookup config (ascii "server") = some setting →
        l'.ccConfig.server.present = true ∧
          l'.ccConfig.server.listen = readAddr lib setting (ascii "listen") := by
  unfold loadServer loadSection cryptochanConfigParseServer
  cases hs : lib.lookup config (ascii "server") with
  | none =>
    refine ⟨_, rfl, fun _ => ?_, by simp⟩
    rw [hl]
    rfl
  | some setting =>
    obtain ⟨sec, desc, ok, e, hpresent, hlisten⟩ := parseAddresses_listen lib hdup
      (ascii "server") setting { l.ccConfig.server with present := true } (by rw [hl]; rfl)
    simp only [he, e, Option.bind_eq_bind, Option.bind_some, if_true]
    refine ⟨_, rfl, by simp, ?_⟩
    rintro setting' ⟨⟩
    exact ⟨hpresent, hlisten⟩

/-- A load with good keys and a good `client` section succeeds, whatever the `server` section is like;
any other fails. -/
theorem load_server (keys : KeyFunctions P) (path : CString) (config : σ) :
    (KeysAccepted lib keys config ∧ SectionAccepted lib config (ascii "client") ∧
      ∃ l, cryptochanConfigLoad lib strdup keys path (.ok config) (.zero P) = some (l, true) ∧
        (lib.lookup config (ascii "server") = none → l.ccConfig.server.present = false) ∧
        ∀ setting, lib.lookup config (ascii "server") = some setting →
          l.ccConfig.server.present = true ∧
            l.ccConfig.server.listen = readAddr lib setting (ascii "listen")) ∨
    (¬ (KeysAccepted lib keys config ∧ SectionAccepted lib config (ascii "client")) ∧
      ∃ l, cryptochanConfigLoad lib strdup keys path (.ok config) (.zero P) = some (l, false)) := by
  simp only [cryptochanConfigLoad]
  rcases loadKeys lib keys hdup path config ⟨.zero P, none, none, []⟩
    [loadClient lib strdup config, loadServer lib strdup config] with
    ⟨hk, l1, e1, hc1, hs1, he1⟩ | ⟨hk, l1, e1⟩
  · rw [e1]
    by_cases hc : SectionAccepted lib config (ascii "client")
    · obtain ⟨l2, e2, he2, hs2, -⟩ := loadClient_accepted hdup hc he1 (by rw [hc1]; rfl)
      obtain ⟨l3, e3, hserver⟩ := loadServer_listen lib hdup config he2 (hs2.trans hs1)
      exact Or.inl ⟨hk, hc, l3, by simp [runStages, e2, e3], hserver⟩
    · obtain ⟨l2, e2⟩ := loadClient_refused hdup hc he1
      exact Or.inr ⟨fun h => hc h.2, l2, by simp [runStages_cons, e2]⟩
  · rw [e1]
    exact Or.inr ⟨fun h => hk h.1, l1, rfl⟩

end Server

/-! ### The draw -/

section Draw

variable {P : Type}

/-- The draw of the generator is not zero. -/
theorem prngDraw_ne_zero (tvSec pid tvUsec : ℤ) (stack : Region) :
    bytes (fillPrngRandom tvSec pid tvUsec stack 32).1 32 ≠ List.replicate 32 0 := by
  rw [bytes_fillPrngRandom]
  intro h
  obtain ⟨i, hi, hne⟩ := stream_ne_zero (prngSeed tvSec pid tvUsec)
  have hi' : i < 32 := by omega
  have hbyte := congrArg (fun l : List UInt8 => l.getD i 0) h
  rw [List.getD_eq_getElem _ _ (by rwa [length_bytes]), getElem_bytes,
    List.getD_eq_getElem _ _ (by rwa [List.length_replicate]), List.getElem_replicate] at hbyte
  exact hne hbyte

theorem keygenDisplay_success {b58 : Libbase58} {ec : Secp256k1 P} (secret : ec.SecretLaws)
    {malloc : ℕ → Bool} {draw : List UInt8} (hlen : draw.length = 32) :
    (keygenDisplay b58 ec malloc (some draw)).success = true ↔ draw ≠ List.replicate 32 0 := by
  constructor
  · rintro h rfl
    simp only [keygenDisplay, generateKeyPair_zero secret] at h
    exact Bool.noConfusion h
  · intro h
    obtain ⟨p, -, -, hpair⟩ := generateKeyPair_eq secret hlen h
    simp only [keygenDisplay, hpair]

/-- Good calls lengthen what has been drawn. -/
theorem length_drawn_lt {random : HostRandom} {max m n : ℕ} (hmn : m < n)
    (hgood : ∀ i < n, 0 < random.answer max i) :
    (random.drawn max m).length < (random.drawn max n).length := by
  induction n with
  | zero => omega
  | succ n ih =>
    have hpos := hgood n (Nat.lt_succ_self n)
    rw [length_drawn_succ]
    rcases Nat.lt_succ_iff_lt_or_eq.mp hmn with h | rfl
    · have := ih h fun i hi => hgood i (by omega)
      omega
    · omega

/-- The one number of good calls. -/
theorem drawn_unique {random : HostRandom} {max m n : ℕ} (hm : ∀ i < m, 0 < random.answer max i)
    (hn : ∀ i < n, 0 < random.answer max i) (hlm : (random.drawn max m).length = max)
    (hln : (random.drawn max n).length = max) : m = n := by
  rcases Nat.lt_trichotomy m n with h | h | h
  · have := length_drawn_lt h hn
    omega
  · exact h
  · have := length_drawn_lt h hm
    omega

end Draw

/-! ### The outcome -/

section Outcome

variable {σ P : Type} [DecidableEq P] (host : Host σ P)

omit [DecidableEq P] in
theorem keygenRun_success (secret : host.ec.SecretLaws) (law : host.random.Law) (doUsePrng : Bool) :
    ∃ printed out, keygenRun host.b58 host.ec host.malloc doUsePrng host.random host.stack 32 =
        some (printed, out) ∧ (out.success = true ↔ host.Generates doUsePrng) := by
  cases doUsePrng with
  | true =>
    refine ⟨_, _, keygenRun_prng host.random host.stack, iff_of_true ?_ (Or.inl rfl)⟩
    exact (keygenDisplay_success secret (length_bytes _ _)).mpr (prngDraw_ne_zero _ _ _ _)
  | false =>
    obtain ⟨n, r, hfill, hgood, hbytes, -, hresult⟩ := fillRandom_getrandom law host.stack 32
    refine ⟨_, _, congrArg (Option.map _) hfill, ?_⟩
    rcases hresult with ⟨hr, hlen, -⟩ | ⟨hneg, hlt, hr, -⟩
    · have hr' : r.result = 32 := hr
      rw [hlen] at hbytes
      rw [if_pos hr', hbytes, keygenDisplay_success secret hlen]
      constructor
      · intro h
        exact Or.inr ⟨n, hgood, hlen, h⟩
      · rintro (h | ⟨m, hm, hlm, h⟩)
        · exact Bool.noConfusion h
        · rwa [drawn_unique hgood hm hlen hlm]
    · have hne : ¬ r.result = 32 := by omega
      rw [if_neg hne]
      refine iff_of_false (by simp [keygenDisplay]) ?_
      rintro (h | ⟨m, hm, hlm, -⟩)
      · exact Bool.noConfusion h
      -- call `n` failed, so it is none of the good ones
      · have hmn : ¬ n < m := fun h => by
          have := hm n h
          omega
        rcases Nat.lt_or_eq_of_le (Nat.not_lt.mp hmn) with h | rfl
        · have := length_drawn_lt h hgood
          omega
        · omega

theorem mainWithConfig_outcome (hdup : ∀ s, host.strdup s = some s) {mode : CryptochanMode}
    (hnone : mode ≠ .none) (hkeygen : mode ≠ .keygen) (configFile : CString) :
    ∃ status p, mainWithConfig host mode configFile = .exit status [] p ∧
      (status = exitSuccess ↔ mode = .server ∧ host.Serves configFile) := by
  unfold mainWithConfig Host.Serves
  cases hfile : host.readFile configFile with
  | error e =>
    refine ⟨exitFailure, _, rfl, iff_of_false (by decide) ?_⟩
    rintro ⟨-, config, setting, hconfig, -⟩
    exact absurd hconfig (by simp)
  | ok config =>
    rcases load_server host.lib hdup host.keys configFile config with
      ⟨hk, hc, l, e, habsent, hpresent⟩ | ⟨hbad, l, e⟩
    · simp only [e]
      cases mode with
      | none => exact absurd rfl hnone
      | keygen => exact absurd rfl hkeygen
      | client =>
        simp only [Bool.true_eq_false, if_false, runClient]
        split_ifs
        · exact ⟨exitFailure, _, rfl, iff_of_false (by decide) fun h => by simp at h⟩
        · exact ⟨exitFailure, _, rfl, iff_of_false (by decide) fun h => by simp at h⟩
      | server =>
        simp only [Bool.true_eq_false, if_false]
        cases hs : host.lib.lookup config (ascii "server") with
        | none =>
          rw [if_pos (habsent hs)]
          refine ⟨exitFailure, _, rfl, iff_of_false (by decide) ?_⟩
          rintro ⟨-, config', setting, hconfig, ⟨-, -, hs'⟩, -⟩
          obtain rfl := Except.ok.inj hconfig
          exact absurd (hs.symm.trans hs') (by simp)
        | some setting =>
          obtain ⟨hpres, hlisten⟩ := hpresent setting hs
          rw [if_neg (by rw [hpres]; decide)]
          refine ⟨_, _, rfl, ?_⟩
          rw [runServer_exit, hlisten]
          constructor
          · intro h
            exact ⟨trivial, config, setting, rfl, ⟨hk, hc, hs⟩, h⟩
          · rintro ⟨-, config', setting', hconfig, ⟨-, -, hs'⟩, h⟩
            obtain rfl := Except.ok.inj hconfig
            obtain rfl := Option.some.inj (hs.symm.trans hs')
            exact h
    · simp only [e]
      refine ⟨exitFailure, _, rfl, iff_of_false (by decide) ?_⟩
      rintro ⟨-, config', setting, hconfig, ⟨hk, hc, -⟩, -⟩
      obtain rfl := Except.ok.inj hconfig
      exact hbad ⟨hk, hc⟩

omit [DecidableEq P] in
theorem argpExit_outcome (e : ArgpExit) :
    ∃ status stdout p, host.argpExit e = .exit status stdout p ∧ (status = exitSuccess ↔ e.Shows) := by
  cases e with
  | error msg => exact ⟨exUsage, _, _, rfl, iff_of_false (by decide) id⟩
  | invalid => exact ⟨exUsage, _, _, rfl, iff_of_false (by decide) id⟩
  | help | usage | version => exact ⟨exitSuccess, _, _, rfl, iff_of_true rfl trivial⟩

/-- The first option of argp's own. -/
theorem exists_first_exit (keys : List ArgpKey) : (∀ key ∈ keys, key.exits = none) ∨
    ∃ before key rest e, keys = before ++ key :: rest ∧ (∀ k ∈ before, k.exits = none) ∧
      key.exits = some e := by
  induction keys with
  | nil => exact Or.inl fun _ h => absurd h List.not_mem_nil
  | cons key keys ih =>
    cases hkey : key.exits with
    | some e => exact Or.inr ⟨[], key, keys, e, rfl, fun _ h => absurd h List.not_mem_nil, hkey⟩
    | none =>
      rcases ih with hall | ⟨before, key', rest, e, rfl, hbefore, he⟩
      · exact Or.inl (List.forall_mem_cons.mpr ⟨hkey, hall⟩)
      · exact Or.inr ⟨key :: before, key', rest, e, rfl, List.forall_mem_cons.mpr ⟨hkey, hbefore⟩, he⟩

/-- There is only one first option of argp's own. -/
theorem first_exit_unique {before before' rest rest' : List ArgpKey} {key key' : ArgpKey}
    (h : before ++ key :: rest = before' ++ key' :: rest') (hb : ∀ k ∈ before, k.exits = none)
    (hb' : ∀ k ∈ before', k.exits = none) (hk : key.exits ≠ none) (hk' : key'.exits ≠ none) :
    before = before' ∧ key = key' := by
  induction before generalizing before' with
  | nil =>
    cases before' with
    | nil => exact ⟨rfl, (List.cons.inj h).1⟩
    | cons k l =>
      obtain ⟨rfl, -⟩ := List.cons.inj h
      exact absurd (hb' _ List.mem_cons_self) hk
  | cons k l ih =>
    cases before' with
    | nil =>
      obtain ⟨rfl, -⟩ := List.cons.inj h
      exact absurd (hb _ List.mem_cons_self) hk'
    | cons k' l' =>
      obtain ⟨rfl, h'⟩ := List.cons.inj h
      obtain ⟨rfl, he⟩ := ih h' (fun x hx => hb x (List.mem_cons_of_mem _ hx))
        fun x hx => hb' x (List.mem_cons_of_mem _ hx)
      exact ⟨rfl, he⟩

/-- An option of argp's own ends the process. -/
theorem main_exits {before : List ArgpKey} {key : ArgpKey} {e : ArgpExit} (hplain : Plain before)
    (rest : List ArgpKey) (hkey : key.exits = some e) :
    ∃ status stdout p, main host (before ++ key :: rest) = .exit status stdout p ∧
      (status = exitSuccess ↔
        e.Shows ∧ (words before = [] ∨ ∃ mode, selected (words before) = .ok mode)) := by
  rw [main, argpParse_exits hplain rest hkey]
  split_ifs with hwords
  · obtain ⟨status, stdout, p, hexit, hstatus⟩ := argpExit_outcome host e
    exact ⟨status, stdout, p, hexit, hstatus.trans (and_iff_left (Or.inl hwords)).symm⟩
  · cases hmode : selected (words before) with
    | ok mode =>
      obtain ⟨status, stdout, p, hexit, hstatus⟩ := argpExit_outcome host e
      exact ⟨status, stdout, p, hexit, hstatus.trans (and_iff_left (Or.inr ⟨mode, rfl⟩)).symm⟩
    | error e' =>
      obtain ⟨msg, rfl⟩ := selected_error hmode
      exact ⟨exUsage, _, _, rfl, iff_of_false (by decide) (by simp [hwords])⟩

/-- Without such an option, the program runs. -/
theorem main_runs (secret : host.ec.SecretLaws) (law : host.random.Law)
    (hdup : ∀ s, host.strdup s = some s) {keys : List ArgpKey} (hplain : Plain keys) :
    ∃ status stdout p, main host (keys ++ [.finish]) = .exit status stdout p ∧
      (status = exitSuccess ↔
        (selected (words keys) = .ok .keygen ∧ host.Generates (usesPrng keys)) ∨
        (selected (words keys) = .ok .server ∧ host.Serves (configPath keys))) := by
  rw [main, argpParse_eq hplain]
  cases hmode : selected (words keys) with
  | error e =>
    obtain ⟨msg, rfl⟩ := selected_error hmode
    exact ⟨exUsage, [], ⟨[], [msg]⟩, rfl, iff_of_false (by decide) (by simp)⟩
  | ok mode =>
    simp only [Except.map, Option.getD_some]
    by_cases hkeygen : mode = .keygen
    · obtain ⟨printed, out, hrun, hsuccess⟩ := keygenRun_success host secret law (usesPrng keys)
      rw [if_pos hkeygen, hrun]
      refine ⟨_, _, _, rfl, ?_⟩
      rw [← hsuccess, hkeygen]
      cases out.success with
      | true => simp
      | false => simp [exitSuccess, exitFailure]
    · obtain ⟨status, p, hrun, hstatus⟩ :=
        mainWithConfig_outcome host hdup (selected_ne_none hmode) hkeygen (configPath keys)
      rw [if_neg hkeygen, hrun]
      refine ⟨status, [], p, rfl, ?_⟩
      simp only [hstatus, Except.ok.injEq, hkeygen, false_and, false_or]

end Outcome

/-- A configuration whose `server` section has nothing but the host of `listen`. -/
def hostOnly : List (CString × ConfigTree) :=
  [(ascii "server", .group [(ascii "listen", .group [(ascii "host", .string (ascii "0.0.0.0"))])])]

noncomputable def sampleHost : Host ConfigTree (List UInt8) where
  argpText _ := []
  b58 := sampleLibbase58
  ec := sampleSecp256k1
  malloc _ := true
  strdup := some
  lib := ConfigTree.lookups
  readFile _ := .ok (keyConfig hostOnly)
  random := shortHost
  stack _ := 0
  net := freshNet
  cntx := ⟨none, 0⟩

end Cryptochan
