import Cryptochan.Config.Load
import Cryptochan.Keys.Base58

/-!
# Cryptochan.Keys.EcHelper — `ec_helper.c` and `keygen_display`

libsecp256k1, libbase58 and `malloc` are parameters.  The decoders are called with `*error_desc`
NULL, as their callers do; a decoder that fails describes the error.  A pointer argument that a failed
call leaves undefined is `none`.
-/

namespace Cryptochan

/-- The functions of libsecp256k1, for public keys of type `P` (`secp256k1_pubkey`).  Serialisation is
to the compressed form. -/
structure Secp256k1 (P : Type) where
  ecSeckeyVerify : List UInt8 → Bool
  ecPubkeyCreate : List UInt8 → Option P
  ecPubkeyParse : List UInt8 → Option P
  ecPubkeySerialize : P → Option (List UInt8)

/-- `%02x` of a byte. -/
def hex2 (b : UInt8) : CString :=
  let digits := ascii "0123456789abcdef"
  [digits.getD (b.toNat / 16) 0, digits.getD (b.toNat % 16) 0]

section EcHelper

variable {P : Type} (b58 : Libbase58) (ec : Secp256k1 P) (malloc : ℕ → Bool)

/-- `decode_b58_privkey`; `wantPubkey` says that `public_key_data` is not NULL. -/
def decodeB58Privkey (encodedKey : CString) (wantPubkey : Bool) :
    Except CString (List UInt8 × Option P) :=
  let sz := encodedKey.length
  if sz > 44 then
    .error (ascii "b58-encoded private key is too large (max 44 b58 digits), got: " ++ encodedKey ++
      ascii " (" ++ decimal sz ++ ascii " digits)")
  else match b58.b58tobin 44 encodedKey with
  | none => .error (ascii "wrong b58-encoded private key: bad base58")
  | some (buf, dsz) =>
    if dsz ≠ 32 then
      .error (ascii "b58-decoded private key has incorrect length: expected 32 bytes, got: " ++
        decimal dsz)
    else
      -- `dptr` is read only here, where `sizeof(buf) - dsz` cannot wrap
      let privateKeyData := (buf.drop (44 - dsz)).take dsz
      if ec.ecSeckeyVerify privateKeyData then
        if wantPubkey then
          match ec.ecPubkeyCreate privateKeyData with
          | none => .error (ascii "failed to create corresponding public key")
          | some pubkey => .ok (privateKeyData, some pubkey)
        else .ok (privateKeyData, none)
      else .error (ascii "incorrect b58-decoded private key: bad secp256k1 key")

/-- `decode_b58_pubkey`. -/
def decodeB58Pubkey (encodedKey : CString) : Except CString P :=
  let sz := encodedKey.length
  if sz > 46 then
    .error (ascii "b58-encoded public key is too large (max 46 b58 digits), got: " ++ encodedKey ++
      ascii " (" ++ decimal sz ++ ascii " digits)")
  else match b58.b58tobin 46 encodedKey with
  | none => .error (ascii "wrong b58-encoded public key: bad base58")
  | some (buf, dsz) =>
    if dsz ≠ 33 then
      -- the source says 32 here
      .error (ascii "b58-decoded public key has incorrect length: expected 32 bytes, got: " ++
        decimal dsz)
    else
      let data := (buf.drop (46 - dsz)).take dsz
      let head := data.getD 0 0
      if head ≠ 0x02 ∧ head ≠ 0x03 then
        .error (ascii "incorrect b58-decoded public key: prefix byte must be 0x02 or 0x03, got: 0x" ++
          hex2 head)
      else match ec.ecPubkeyParse data with
      | none => .error (ascii "incorrect b58-decoded public key: bad secp256k1 pubkey")
      | some pubkey => .ok pubkey

/-- `privkey_to_pubkey`. -/
def privkeyToPubkey (privateKeyData : List UInt8) : Option P :=
  if ec.ecSeckeyVerify privateKeyData then ec.ecPubkeyCreate privateKeyData else none

/-- `check_pubkey_belongs_to_privkey`; `memcmp` compares the two structures. -/
def checkPubkeyBelongsToPrivkey [DecidableEq P] (privateKeyData : List UInt8) (pubkey : P) : Bool :=
  match privkeyToPubkey ec privateKeyData with
  | none => false
  | some origPubkey => pubkey = origPubkey

/-- `b58enc_data`. -/
def b58encData (data : List UInt8) (sz : ℕ) : Option CString :=
  match b58.b58enc (sz * 2) (data.take sz) with
  | none => none
  | some (buf, tsz) => if malloc (tsz + 1) then some buf else none

/-- `privkey_to_b58enc_form`. -/
def privkeyToB58encForm (privateKeyData : List UInt8) : Option CString :=
  b58encData b58 malloc privateKeyData 32

/-- `pubkey_to_b58enc_form`. -/
def pubkeyToB58encForm (pubkey : P) : Option CString :=
  match ec.ecPubkeySerialize pubkey with
  | none => none
  | some compressedPubkey =>
    if compressedPubkey.length = 33 then b58encData b58 malloc compressedPubkey 33 else none

/-- The key functions the configuration loader calls. -/
def ecHelper [DecidableEq P] : KeyFunctions P where
  decodeB58Privkey s := decodeB58Privkey b58 ec s true
  decodeB58Pubkey := decodeB58Pubkey b58 ec
  checkPubkeyBelongsToPrivkey := checkPubkeyBelongsToPrivkey ec
  pubkeyToB58encForm := pubkeyToB58encForm b58 ec malloc

/-! ### `keygen_display` -/

/-- What `keygen_display` leaves: the text in `file`, the text in `stderr`, whether it returns
`EXIT_SUCCESS`. -/
structure KeygenOutput where
  file : CString
  stderr : CString
  success : Bool
  deriving DecidableEq

/-- `private_key_data[0] >>= 1`. -/
def shiftFirst : List UInt8 → List UInt8
  | [] => []
  | b :: rest => (b >>> 1) :: rest

/-- The two attempts: the key bytes used and their public key. -/
def generateKeyPair (privateKeyData : List UInt8) : Option (List UInt8 × P) :=
  match privkeyToPubkey ec privateKeyData with
  | some pubkey => some (privateKeyData, pubkey)
  | none =>
    -- order overflow? shift and repeat
    match privkeyToPubkey ec (shiftFirst privateKeyData) with
    | some pubkey => some (shiftFirst privateKeyData, pubkey)
    | none => none

/-- One of the two lines, or the complaint that the key could not be encoded. -/
def displayKey (name : CString) (encoded : Option CString) : CString × CString :=
  match encoded with
  | some key => (name ++ ascii "-key = \"" ++ key ++ ascii "\";\n", [])
  | none => ([], ascii "FATAL: could not encode " ++ name ++ ascii " key.\n")

/-- `keygen_display`; `drawn` is what `fill_random` put into the 32 bytes, `none` when it failed. -/
def keygenDisplay (drawn : Option (List UInt8)) : KeygenOutput :=
  match drawn with
  | none => ⟨[], ascii "FATAL: failed to fill random private key data.\n", false⟩
  | some privateKeyData =>
    match generateKeyPair ec privateKeyData with
    | none => ⟨[], ascii "FATAL: could not generate key pair.\n", false⟩
    | some (privateKeyData, publicKeyData) =>
      let priv := displayKey (ascii "private") (privkeyToB58encForm b58 malloc privateKeyData)
      let pub := displayKey (ascii "public") (pubkeyToB58encForm b58 ec malloc publicKeyData)
      ⟨priv.1 ++ pub.1, priv.2 ++ pub.2, true⟩

end EcHelper

end Cryptochan
