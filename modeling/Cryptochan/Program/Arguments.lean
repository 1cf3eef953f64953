import Cryptochan.Machine

/-!
# Cryptochan.Program.Arguments — the command line

argp splits the command line into keys and hands them to `parse_opt` one after the other, the key of
the end last.  The case of an argument has no `break`: it runs into the case of the end.  The options
of argp itself, `--help` and the like, and those it cannot make sense of, end the process where they
stand.

`selected` reads the command line as a whole; `argpParse_eq` says that `parse_opt` does the same, in
whatever order options and arguments stand, and `argpParse_exits` what comes of argp's own options.
-/

namespace Cryptochan

/-- `cryptochan_mode_t`. -/
inductive CryptochanMode
  | none
  | client
  | server
  | keygen
  deriving DecidableEq

/-- `cryptochan_arguments_t`. -/
structure CryptochanArguments where
  mode : CryptochanMode
  configFile : Option CString
  deriving DecidableEq

/-- A key of argp, with its argument.  `help` is `-?` or `--help`, `version` is `-V` or `--version`;
`invalid` is an option that is unknown or ambiguous, that lacks its argument, or has one it does not
take; `other` is a key that only argp looks at and that changes nothing here. -/
inductive ArgpKey
  | config (arg : CString)
  | prng
  | arg (arg : CString)
  | finish
  | help
  | usage
  | version
  | invalid
  | other
  deriving DecidableEq

/-- How argp ends the process: by `argp_error` with a text, or at an option of its own. -/
inductive ArgpExit
  | error (msg : CString)
  | help
  | usage
  | version
  | invalid
  deriving DecidableEq

/-- The keys at which argp ends the process without `parse_opt`. -/
def ArgpKey.exits : ArgpKey → Option ArgpExit
  | .help => some .help
  | .usage => some .usage
  | .version => some .version
  | .invalid => some .invalid
  | _ => none

/-- `CRYPTOCHAN_DEFAULT_CONFIG_FILE`. -/
def cryptochanDefaultConfigFile : CString := ascii "/etc/cryptochan/cryptochan.conf"

def toLower (c : UInt8) : UInt8 := if 0x41 ≤ c ∧ c ≤ 0x5a then c + 0x20 else c

/-- `!strcasecmp(s, t)`. -/
def strcaseeq (s t : CString) : Bool := s.map toLower = t.map toLower

/-- The parser: the arguments, and `do_use_prng`. -/
abbrev ArgpResult := Except ArgpExit (CryptochanArguments × Bool)

/-- `argp_error`, which ends the process. -/
def argpError {α : Type} (msg : CString) : Except ArgpExit α := .error (.error msg)

/-- The case `ARGP_KEY_END`. -/
def parseEnd (arguments : CryptochanArguments) (doUsePrng : Bool) : ArgpResult :=
  if arguments.mode = .none then argpError (ascii "MODE is not specified.\n")
  else match arguments.configFile with
    | none => .ok ({ arguments with configFile := some cryptochanDefaultConfigFile }, doUsePrng)
    | some _ => .ok (arguments, doUsePrng)

/-- `parse_opt`.  A key it does not know leaves all as it is. -/
def parseOpt (key : ArgpKey) (arguments : CryptochanArguments) (doUsePrng : Bool) : ArgpResult :=
  match key with
  | .config arg => .ok ({ arguments with configFile := some arg }, doUsePrng)
  | .prng => .ok (arguments, true)
  | .arg arg =>
    if arguments.mode ≠ .none then argpError (ascii "Unexpected option: " ++ arg ++ ascii "\n")
    else if strcaseeq (ascii "client") arg then parseEnd { arguments with mode := .client } doUsePrng
    else if strcaseeq (ascii "server") arg then parseEnd { arguments with mode := .server } doUsePrng
    else if strcaseeq (ascii "keygen") arg then parseEnd { arguments with mode := .keygen } doUsePrng
    else argpError (ascii "Unrecognized mode: " ++ arg ++ ascii "\n")
  | .finish => parseEnd arguments doUsePrng
  | _ => .ok (arguments, doUsePrng)

/-- `argp_parse`. -/
def argpParse : List ArgpKey → CryptochanArguments → Bool → ArgpResult
  | [], arguments, doUsePrng => .ok (arguments, doUsePrng)
  | key :: keys, arguments, doUsePrng => match key.exits with
    | some e => .error e
    | none => do
      let (arguments, doUsePrng) ← parseOpt key arguments doUsePrng
      argpParse keys arguments doUsePrng

/-! ### The command line as a whole -/

/-- The mode a word stands for. -/
def modeOf (word : CString) : Except ArgpExit CryptochanMode :=
  if strcaseeq (ascii "client") word then .ok .client
  else if strcaseeq (ascii "server") word then .ok .server
  else if strcaseeq (ascii "keygen") word then .ok .keygen
  else argpError (ascii "Unrecognized mode: " ++ word ++ ascii "\n")

/-- No word may follow the mode. -/
def noMore (mode : CryptochanMode) : List CString → Except ArgpExit CryptochanMode
  | [] => .ok mode
  | word :: _ => argpError (ascii "Unexpected option: " ++ word ++ ascii "\n")

/-- The mode the words select. -/
def selected : List CString → Except ArgpExit CryptochanMode
  | [] => argpError (ascii "MODE is not specified.\n")
  | word :: rest => do
    let mode ← modeOf word
    noMore mode rest

def ArgpKey.word : ArgpKey → Option CString
  | .arg text => some text
  | _ => none

def ArgpKey.path : ArgpKey → Option CString
  | .config text => some text
  | _ => none

/-- The words that are not options, and the arguments of `-C`. -/
def words (keys : List ArgpKey) : List CString := keys.filterMap ArgpKey.word

def paths (keys : List ArgpKey) : List CString := keys.filterMap ArgpKey.path

/-- The configuration file: that of the last `-C`, or the default. -/
def configPath (keys : List ArgpKey) : CString := (paths keys).getLastD cryptochanDefaultConfigFile

def usesPrng (keys : List ArgpKey) : Bool := keys.contains .prng

section Parse

theorem parseEnd_eq {mode : CryptochanMode} (hmode : mode ≠ .none) (file : Option CString)
    (doUsePrng : Bool) : parseEnd ⟨mode, file⟩ doUsePrng =
      .ok (⟨mode, some (file.getD cryptochanDefaultConfigFile)⟩, doUsePrng) := by
  rw [parseEnd, if_neg hmode]
  cases file with
  | none => rfl
  | some path => rfl

/-- A word while no mode is set. -/
theorem parseOpt_word (word : CString) (file : Option CString) (doUsePrng : Bool) :
    parseOpt (.arg word) ⟨.none, file⟩ doUsePrng = (modeOf word).map fun mode =>
      (⟨mode, some (file.getD cryptochanDefaultConfigFile)⟩, doUsePrng) := by
  simp only [parseOpt, modeOf, ne_eq, not_true_eq_false, if_false]
  split_ifs
  · exact parseEnd_eq (by decide) file doUsePrng
  · exact parseEnd_eq (by decide) file doUsePrng
  · exact parseEnd_eq (by decide) file doUsePrng
  · rfl

/-- No word stands for `NONE`. -/
theorem modeOf_ne_none {word : CString} {mode : CryptochanMode} (h : modeOf word = .ok mode) :
    mode ≠ .none := by
  rintro rfl
  unfold modeOf at h
  split_ifs at h <;> simp [argpError] at h

/-- No words select `NONE`. -/
theorem selected_ne_none {words : List CString} {mode : CryptochanMode}
    (h : selected words = .ok mode) : mode ≠ .none := by
  cases words with
  | nil => simp [selected, argpError] at h
  | cons word rest =>
    rw [selected] at h
    cases hword : modeOf word with
    | error msg =>
      rw [hword] at h
      exact absurd h (by simp [bind, Except.bind])
    | ok m =>
      rw [hword] at h
      cases rest with
      | nil =>
        obtain rfl := Except.ok.inj h
        exact modeOf_ne_none hword
      | cons next rest => exact absurd h (by simp [bind, Except.bind, noMore, argpError])

/-- The words are refused by `argp_error`. -/
theorem selected_error {words : List CString} {e : ArgpExit} (h : selected words = .error e) :
    ∃ msg, e = .error msg := by
  cases words with
  | nil => exact ⟨_, (Except.error.inj h).symm⟩
  | cons word rest =>
    rw [selected] at h
    cases hword : modeOf word with
    | error e' =>
      rw [hword] at h
      obtain rfl : e' = e := Except.error.inj h
      unfold modeOf at hword
      split_ifs at hword
      exact ⟨_, (Except.error.inj hword).symm⟩
    | ok m =>
      rw [hword] at h
      cases rest with
      | nil => exact absurd h (by simp [bind, Except.bind, noMore])
      | cons next rest => exact ⟨_, (Except.error.inj h).symm⟩

section Steps

variable (keys : List ArgpKey) (arguments : CryptochanArguments) (doUsePrng : Bool) (text : CString)

@[simp] theorem argpParse_config : argpParse (.config text :: keys) arguments doUsePrng =
    argpParse keys { arguments with configFile := some text } doUsePrng := rfl

@[simp] theorem argpParse_prng : argpParse (.prng :: keys) arguments doUsePrng =
    argpParse keys arguments true := rfl

@[simp] theorem argpParse_other : argpParse (.other :: keys) arguments doUsePrng =
    argpParse keys arguments doUsePrng := rfl

@[simp] theorem words_config : words (.config text :: keys) = words keys := rfl
@[simp] theorem words_prng : words (.prng :: keys) = words keys := rfl
@[simp] theorem words_arg : words (.arg text :: keys) = text :: words keys := rfl
@[simp] theorem words_other : words (.other :: keys) = words keys := rfl

@[simp] theorem paths_config : paths (.config text :: keys) = text :: paths keys := rfl
@[simp] theorem paths_prng : paths (.prng :: keys) = paths keys := rfl
@[simp] theorem paths_arg : paths (.arg text :: keys) = paths keys := rfl
@[simp] theorem paths_other : paths (.other :: keys) = paths keys := rfl

@[simp] theorem usesPrng_config : usesPrng (.config text :: keys) = usesPrng keys := rfl
@[simp] theorem usesPrng_prng : usesPrng (.prng :: keys) = true := rfl
@[simp] theorem usesPrng_arg : usesPrng (.arg text :: keys) = usesPrng keys := rfl
@[simp] theorem usesPrng_other : usesPrng (.other :: keys) = usesPrng keys := rfl

end Steps

@[simp] theorem argpParse_finish (mode : CryptochanMode) (file : Option CString)
    (doUsePrng : Bool) : argpParse [.finish] ⟨mode, file⟩ doUsePrng =
      parseEnd ⟨mode, file⟩ doUsePrng := by
  show (parseEnd ⟨mode, file⟩ doUsePrng).bind (fun r => .ok (r.1, r.2)) = _
  cases parseEnd ⟨mode, file⟩ doUsePrng <;> rfl

/-- `parse_opt` sees every key, and not the last one. -/
def Plain (keys : List ArgpKey) : Prop := ∀ key ∈ keys, key.exits = none ∧ key ≠ .finish

theorem Plain.tail {key : ArgpKey} {keys : List ArgpKey} (h : Plain (key :: keys)) : Plain keys :=
  fun k hk => h k (List.mem_cons_of_mem _ hk)

variable {keys : List ArgpKey} (hplain : Plain keys) (rest : List ArgpKey)
include hplain

/-- Options alone. -/
theorem argpParse_options (hwords : words keys = []) (mode : CryptochanMode) (file : Option CString)
    (doUsePrng : Bool) : argpParse (keys ++ rest) ⟨mode, file⟩ doUsePrng =
      argpParse rest ⟨mode, ((paths keys).map some).getLastD file⟩ (doUsePrng || usesPrng keys) := by
  induction keys generalizing file doUsePrng with
  | nil => simp [paths, usesPrng]
  | cons key keys ih =>
    have hkey := hplain key List.mem_cons_self
    rw [List.cons_append]
    cases key with
    | config path =>
      simp only [argpParse_config, ih hplain.tail hwords, paths_config, usesPrng_config, List.map_cons,
        List.getLastD_cons]
    | prng =>
      simp only [argpParse_prng, ih hplain.tail hwords, paths_prng, usesPrng_prng, Bool.or_true,
        Bool.true_or]
    | arg word => exact absurd hwords (List.cons_ne_nil _ _)
    | finish => exact absurd rfl hkey.2
    | help | usage | version | invalid => exact absurd hkey.1 (Option.some_ne_none _)
    | other => simp only [argpParse_other, ih hplain.tail hwords, paths_other, usesPrng_other]

/-- After the mode is set, there must be no further word. -/
theorem argpParse_mode {mode : CryptochanMode} (hmode : mode ≠ .none) (file : CString)
    (doUsePrng : Bool) : argpParse (keys ++ rest) ⟨mode, some file⟩ doUsePrng =
      (noMore mode (words keys)).bind fun mode => argpParse rest
        ⟨mode, some ((paths keys).getLastD file)⟩ (doUsePrng || usesPrng keys) := by
  induction keys generalizing file doUsePrng with
  | nil => simp [words, paths, usesPrng, noMore, Except.bind]
  | cons key keys ih =>
    have hkey := hplain key List.mem_cons_self
    rw [List.cons_append]
    cases key with
    | config path =>
      simp only [argpParse_config, ih hplain.tail, words_config, paths_config, usesPrng_config,
        List.getLastD_cons]
    | prng =>
      simp only [argpParse_prng, ih hplain.tail, words_prng, paths_prng, usesPrng_prng, Bool.or_true,
        Bool.true_or]
    | arg word =>
      rw [argpParse, parseOpt, if_pos hmode]
      rfl
    | finish => exact absurd rfl hkey.2
    | help | usage | version | invalid => exact absurd hkey.1 (Option.some_ne_none _)
    | other => simp only [argpParse_other, ih hplain.tail, words_other, paths_other, usesPrng_other]

/-- The first word sets the mode. -/
theorem argpParse_none (hwords : words keys ≠ []) (file : Option CString) (doUsePrng : Bool) :
    argpParse (keys ++ rest) ⟨.none, file⟩ doUsePrng =
      (selected (words keys)).bind fun mode => argpParse rest
        ⟨mode, some ((paths keys).getLastD (file.getD cryptochanDefaultConfigFile))⟩
        (doUsePrng || usesPrng keys) := by
  induction keys generalizing file doUsePrng with
  | nil => exact absurd rfl hwords
  | cons key keys ih =>
    have hkey := hplain key List.mem_cons_self
    rw [List.cons_append]
    cases key with
    | config path =>
      simp only [argpParse_config, ih hplain.tail hwords, words_config, paths_config, usesPrng_config,
        List.getLastD_cons, Option.getD_some]
    | prng =>
      simp only [argpParse_prng, ih hplain.tail hwords, words_prng, paths_prng, usesPrng_prng,
        Bool.or_true, Bool.true_or]
    | arg word =>
      simp only [argpParse, ArgpKey.exits, parseOpt_word, words_arg, selected]
      cases hword : modeOf word with
      | error msg => rfl
      | ok mode => exact argpParse_mode hplain.tail rest (modeOf_ne_none hword) _ doUsePrng
    | finish => exact absurd rfl hkey.2
    | help | usage | version | invalid => exact absurd hkey.1 (Option.some_ne_none _)
    | other =>
      simp only [argpParse_other, ih hplain.tail hwords, words_other, paths_other, usesPrng_other]

/-- **The command line**: exactly one word must be given, and stand for a mode.  The configuration file
is that of the last `-C` wherever it stands, and `-P` counts wherever it stands. -/
theorem argpParse_eq : argpParse (keys ++ [.finish]) ⟨.none, none⟩ false =
    (selected (words keys)).map fun mode => (⟨mode, some (configPath keys)⟩, usesPrng keys) := by
  by_cases hwords : words keys = []
  · rw [argpParse_options hplain _ hwords, hwords, argpParse_finish]
    rfl
  · rw [argpParse_none hplain _ hwords]
    cases hmode : selected (words keys) with
    | error e => rfl
    | ok mode =>
      show argpParse [.finish] _ _ = _
      rw [argpParse_finish, parseEnd_eq (selected_ne_none hmode)]
      rfl

/-- argp's own options count where they stand: the words before them come first. -/
theorem argpParse_exits {key : ArgpKey} {e : ArgpExit} (hkey : key.exits = some e) :
    argpParse (keys ++ key :: rest) ⟨.none, none⟩ false =
      if words keys = [] then .error e else (selected (words keys)).bind fun _ => .error e := by
  have hexit : ∀ arguments doUsePrng, argpParse (key :: rest) arguments doUsePrng = .error e := by
    intro arguments doUsePrng
    rw [argpParse, hkey]
  split_ifs with hwords
  · rw [argpParse_options hplain _ hwords, hexit]
  · rw [argpParse_none hplain _ hwords]
    exact congrArg _ (funext fun mode => hexit _ _)

end Parse

end Cryptochan
