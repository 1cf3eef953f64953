import Cryptochan.Machine

/-!
# Cryptochan.Config.Load — loading the configuration

`cryptochan_config_load` works through four stages and leaves at the first one that fails: the
private key, the public key, the `client` section, the `server` section.  An address is parsed by
`cryptochan_config_parse_sock_addr`, the two addresses of a section by `parseAddresses`, which
`cryptochan_config_parse_client` and `cryptochan_config_parse_server` share up to what they return.

libconfig, `strdup` and the key functions are parameters.  A function that may call `abort` (through
`assure_error_desc_empty`) has its result in `Option`.  What `cryptochan_config_load` itself prints to
`stderr` is in the log, without the reason that `perror` adds.
-/

namespace Cryptochan

/-- The lookups of libconfig, for settings of type `σ`. -/
structure Libconfig (σ : Type) where
  lookup : σ → CString → Option σ
  lookupString : σ → CString → Option CString
  lookupInt : σ → CString → Option ℤ

/-- The key functions of `ec_helper.c` that the loader calls, for public keys of type `P`.  A decoder
that fails describes the error; what it may have stored then is not kept. -/
structure KeyFunctions (P : Type) where
  decodeB58Privkey : CString → Except CString (List UInt8 × Option P)
  decodeB58Pubkey : CString → Except CString P
  checkPubkeyBelongsToPrivkey : List UInt8 → P → Bool
  pubkeyToB58encForm : P → Option CString

/-- `cryptochan_config_sock_addr_t`. -/
structure SockAddr where
  host : Option CString
  port : ℤ
  deriving DecidableEq

/-- `cryptochan_config_client_t` and `cryptochan_config_server_t`. -/
structure ConfigSection where
  present : Bool
  listen : SockAddr
  target : SockAddr

/-- `cryptochan_config_t`; key data is `none` until it is decoded. -/
structure CryptochanConfig (P : Type) where
  privateKey : Option CString
  publicKey : Option CString
  client : ConfigSection
  server : ConfigSection
  privateKeyData : Option (List UInt8)
  publicKeyData : Option P

/-- The configuration after the `memset` of `main`. -/
def CryptochanConfig.zero (P : Type) : CryptochanConfig P :=
  let addr : SockAddr := ⟨none, 0⟩
  ⟨none, none, ⟨false, addr, addr⟩, ⟨false, addr, addr⟩, none, none⟩

/-- `assure_error_desc_empty`: `none` is the call of `abort`. -/
def assureErrorDescEmpty (errorDesc : Option CString) : Option Unit :=
  if errorDesc.isSome then none else some ()

/-- What `printf` shows for `%s`. -/
def shown (s : Option CString) : CString := s.getD (ascii "(null)")

section Parse

variable {σ : Type} (lib : Libconfig σ) (strdup : CString → Option CString)

/-- `cryptochan_config_parse_sock_addr`: the address, `*error_desc`, the result. -/
def cryptochanConfigParseSockAddr (root : σ) (name : CString) (sa : SockAddr)
    (errorDesc : Option CString) : Option (SockAddr × Option CString × Bool) := do
  assureErrorDescEmpty errorDesc
  match lib.lookup root name with
  | none => some (sa, some (ascii "missing `" ++ name ++ ascii "' setting"), false)
  | some nest =>
    match lib.lookupString nest (ascii "host") with
    | none =>
      some (sa, some (ascii "incomplete `" ++ name ++ ascii "' setting: missing `host'"), false)
    | some str =>
      match strdup str with
      | none => some ({ sa with host := none }, errorDesc, false)
      | some host =>
        let sa := { sa with host := some host }
        match lib.lookupInt nest (ascii "port") with
        | some port => some ({ sa with port }, errorDesc, true)
        | none =>
          match lib.lookup nest (ascii "port") with
          -- the source says `host` here
          | none =>
            some (sa, some (ascii "incomplete `" ++ name ++ ascii "' setting: missing `host'"), false)
          | some _ =>
            some (sa, some (ascii "incorrect `" ++ name ++ ascii "' setting: invalid `port'"), false)

/-- The common part of `parse_client` and `parse_server`: the section, `*error_desc`, and whether
both addresses were parsed. -/
def parseAddresses (kind : CString) (setting : σ) (sec : ConfigSection)
    (errorDesc : Option CString) : Option (ConfigSection × Option CString × Bool) := do
  assureErrorDescEmpty errorDesc
  let describe := fun nest : Option CString =>
    match nest with
    | some desc => some (ascii "bad `" ++ kind ++ ascii "' config: " ++ desc)
    | none => errorDesc
  let (listen, nest, ok) ← cryptochanConfigParseSockAddr lib strdup setting (ascii "listen")
    sec.listen none
  if ok then
    let (target, nest, ok) ← cryptochanConfigParseSockAddr lib strdup setting (ascii "target")
      sec.target nest
    if ok then some ({ sec with listen, target }, errorDesc, true)
    else some ({ sec with listen, target }, describe nest, false)
  else some ({ sec with listen }, describe nest, false)

/-- `cryptochan_config_parse_client`. -/
def cryptochanConfigParseClient (setting : σ) (ccClient : ConfigSection)
    (errorDesc : Option CString) : Option (ConfigSection × Option CString × Bool) :=
  parseAddresses lib strdup (ascii "client") setting ccClient errorDesc

/-- `cryptochan_config_parse_server`: there is no `return false` after the error is described. -/
def cryptochanConfigParseServer (setting : σ) (ccServer : ConfigSection)
    (errorDesc : Option CString) : Option (ConfigSection × Option CString × Bool) := do
  let (ccServer, errorDesc, _) ←
    parseAddresses lib strdup (ascii "server") setting ccServer errorDesc
  some (ccServer, errorDesc, true)

end Parse

/-! ### The stages of `cryptochan_config_load` -/

/-- The locals of the loader that outlive a stage, and what was printed. -/
structure Loading (P : Type) where
  ccConfig : CryptochanConfig P
  origPubkey : Option P
  errorDesc : Option CString
  stderr : List CString

/-- A stage goes on (`true`) or leaves the loop (`false`). -/
abbrev LoadStage (P : Type) := Loading P → Option (Loading P × Bool)

namespace Loading

variable {P : Type} (l : Loading P)

def goOn (ccConfig : CryptochanConfig P) : Option (Loading P × Bool) :=
  some ({ l with ccConfig }, true)

/-- Print and `break`. -/
def leave (msg : CString) : Option (Loading P × Bool) :=
  some ({ l with stderr := l.stderr ++ [msg] }, false)

end Loading

section Load

variable {σ P : Type} (lib : Libconfig σ) (strdup : CString → Option CString)
  (keys : KeyFunctions P) (configFilepath : CString) (config : σ)

def loadPrivateKey : LoadStage P := fun l =>
  match lib.lookupString config (ascii "private-key") with
  | none => l.leave
    (ascii "Missing private-key setting in config file `" ++ configFilepath ++ ascii "'\n")
  | some str =>
    match strdup str with
    | none => l.leave (ascii "strdup")
    | some privateKey =>
      let l := { l with ccConfig := { l.ccConfig with privateKey := some privateKey } }
      match keys.decodeB58Privkey privateKey with
      | .error desc =>
        { l with errorDesc := some desc }.leave
          (ascii "Bad private-key setting in config file `" ++ configFilepath ++ ascii "': " ++ desc ++
            ascii "\n")
      | .ok (data, origPubkey) =>
        { l with origPubkey }.goOn { l.ccConfig with privateKeyData := some data }

/-- The message about a public key that does not belong to the private key. -/
def badPubkeyMessage (given : CString) (origPubkey : Option P) : CString :=
  ascii "Bad public-key setting in config file `" ++ configFilepath ++
    ascii "': does not belong to the private key\n" ++
    match origPubkey.bind keys.pubkeyToB58encForm with
    | some valid =>
      ascii "  * given key = " ++ given ++ ascii "\n  * valid key = " ++ valid ++ ascii "\n"
    | none => ascii "ERROR: could not encode valid public key"

def loadPublicKey : LoadStage P := fun l =>
  match lib.lookupString config (ascii "public-key") with
  | none => l.goOn l.ccConfig
  | some str =>
    match strdup str with
    | none => l.leave (ascii "strdup")
    | some publicKey =>
      let l := { l with ccConfig := { l.ccConfig with publicKey := some publicKey } }
      match keys.decodeB58Pubkey publicKey with
      | .error desc =>
        { l with errorDesc := some desc }.leave
          (ascii "Bad public-key setting in config file `" ++ configFilepath ++ ascii "': " ++ desc ++
            ascii "\n")
      | .ok data =>
        let l := { l with ccConfig := { l.ccConfig with publicKeyData := some data } }
        if keys.checkPubkeyBelongsToPrivkey (l.ccConfig.privateKeyData.getD []) data then
          l.goOn l.ccConfig
        else l.leave (badPubkeyMessage keys configFilepath publicKey l.origPubkey)

/-- A section, if there is one: mark it present and parse it. -/
def loadSection (name : CString) (get : CryptochanConfig P → ConfigSection)
    (set : CryptochanConfig P → ConfigSection → CryptochanConfig P)
    (parse : σ → ConfigSection → Option CString → Option (ConfigSection × Option CString × Bool)) :
    LoadStage P := fun l =>
  match lib.lookup config name with
  | none => l.goOn l.ccConfig
  | some setting => do
    let (sec, errorDesc, ok) ← parse setting { get l.ccConfig with present := true } l.errorDesc
    let l := { l with ccConfig := set l.ccConfig sec, errorDesc }
    if ok then l.goOn l.ccConfig
    else l.leave (ascii "Failed to load config file: " ++ shown errorDesc ++ ascii "\n")

def loadClient : LoadStage P :=
  loadSection lib config (ascii "client") (·.client) (fun cc client => { cc with client })
    (cryptochanConfigParseClient lib strdup)

def loadServer : LoadStage P :=
  loadSection lib config (ascii "server") (·.server) (fun cc server => { cc with server })
    (cryptochanConfigParseServer lib strdup)

/-- The stages in order, up to the first that leaves the loop. -/
def runStages : List (LoadStage P) → LoadStage P
  | [], l => some (l, true)
  | f :: fs, l => do
    let (l, ok) ← f l
    if ok then runStages fs l else some (l, false)

end Load

/-- `cryptochan_config_load`; `file` is what `config_read_file` makes of the file: a setting, or the
line and the text of an error. -/
def cryptochanConfigLoad {σ P : Type} (lib : Libconfig σ) (strdup : CString → Option CString)
    (keys : KeyFunctions P) (configFilepath : CString) (file : Except (ℕ × CString) σ)
    (ccConfig : CryptochanConfig P) : Option (Loading P × Bool) :=
  let l : Loading P := ⟨ccConfig, none, none, []⟩
  match file with
  | .error (line, text) =>
    l.leave (ascii "Error parsing config file `" ++ configFilepath ++ ascii "' at line " ++
      decimal line ++ ascii ": " ++ text ++ ascii "\n")
  | .ok config => runStages [loadPrivateKey lib strdup keys configFilepath config,
      loadPublicKey lib strdup keys configFilepath config, loadClient lib strdup config,
      loadServer lib strdup config] l

end Cryptochan
