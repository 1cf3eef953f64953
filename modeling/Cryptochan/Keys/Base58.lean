import Mathlib.Data.List.GetD
import Cryptochan.Lib.Radix
import Cryptochan.Machine

/-!
# Cryptochan.Keys.Base58 — canonical base58

A byte string is a numeral to the base 256; its base58 form is the same numeral to the base 58, a
`1` for every leading zero byte.  `Libbase58` is the library, `Libbase58.Laws` what it promises.
-/

namespace Cryptochan

open Radix

/-- The base58 characters in the order of their digits. -/
def base58Alphabet : CString := ascii "123456789ABCDEFGHJKLMNPQRSTUVWXYZabcdefghijkmnopqrstuvwxyz"

theorem length_base58Alphabet : base58Alphabet.length = 58 := by decide +kernel

theorem nodup_base58Alphabet : base58Alphabet.Nodup := by decide +kernel

def base58Char (d : ℕ) : UInt8 := base58Alphabet.getD d 0

/-- The digits of a string, if all its characters are base58. -/
def base58Digits (s : CString) : Option (List ℕ) :=
  if s.all base58Alphabet.contains then some (s.map fun a => base58Alphabet.idxOf a) else none

/-- The digits of a byte string, and back. -/
def byteDigits (data : List UInt8) : List ℕ := data.map UInt8.toNat

def digitBytes (ds : List ℕ) : List UInt8 := ds.map UInt8.ofNat

/-- The big-endian value of a byte string. -/
def beValue (data : List UInt8) : ℕ := value 256 (byteDigits data)

def base58Encode (data : List UInt8) : CString :=
  (transcode 256 58 (byteDigits data)).map base58Char

/-! ### The library -/

/-- The functions of libbase58.  `b58enc cap data` writes into a buffer of `cap` bytes and returns the
string with the size it reports; `b58tobin cap s` fills a buffer of `cap` bytes and reports a size. -/
structure Libbase58 where
  b58enc : ℕ → List UInt8 → Option (CString × ℕ)
  b58tobin : ℕ → CString → Option (List UInt8 × ℕ)

/-- A value at the end of a buffer of `cap` bytes, zeros before it. -/
def rightAligned (cap v : ℕ) : List UInt8 :=
  digitBytes (numeral 256 (cap - (Nat.digits 256 v).length) v)

/-- What libbase58 promises: `b58enc` is canonical and its size counts the NUL; `b58tobin` writes the
value right-aligned and reports the significant bytes plus the leading `1`s; it refuses foreign
characters and values that do not fit. -/
structure Libbase58.Laws (lib : Libbase58) : Prop where
  enc : ∀ cap data, (base58Encode data).length < cap →
    lib.b58enc cap data = some (base58Encode data, (base58Encode data).length + 1)
  tobin : ∀ cap s ds, base58Digits s = some ds → value 58 ds < 256 ^ cap →
    lib.b58tobin cap s = some (rightAligned cap (value 58 ds),
      (Nat.digits 256 (value 58 ds)).length + zeros ds)
  foreign : ∀ cap s, base58Digits s = none → lib.b58tobin cap s = none
  tooLarge : ∀ cap s ds, base58Digits s = some ds → 256 ^ cap ≤ value 58 ds →
    lib.b58tobin cap s = none

/-! ### Characters and digits -/

theorem base58Char_mem {d : ℕ} (h : d < 58) : base58Char d ∈ base58Alphabet := by
  rw [base58Char, List.getD_eq_getElem _ _ (by rwa [length_base58Alphabet])]
  exact List.getElem_mem _

theorem idxOf_base58Char {d : ℕ} (h : d < 58) : base58Alphabet.idxOf (base58Char d) = d := by
  rw [base58Char, List.getD_eq_getElem _ _ (by rwa [length_base58Alphabet])]
  exact nodup_base58Alphabet.idxOf_getElem d _

theorem base58Char_idxOf {a : UInt8} (h : a ∈ base58Alphabet) :
    base58Char (base58Alphabet.idxOf a) = a := by
  rw [base58Char, List.getD_eq_getElem _ _ (List.idxOf_lt_length_iff.mpr h)]
  exact List.getElem_idxOf _

theorem all_contains_iff {s : CString} :
    s.all base58Alphabet.contains = true ↔ ∀ a ∈ s, a ∈ base58Alphabet := by
  simp

theorem base58Digits_map {ds : List ℕ} (h : ∀ d ∈ ds, d < 58) :
    base58Digits (ds.map base58Char) = some ds := by
  have hmem : ∀ a ∈ ds.map base58Char, a ∈ base58Alphabet := by
    intro a ha
    obtain ⟨d, hd, rfl⟩ := List.mem_map.mp ha
    exact base58Char_mem (h d hd)
  rw [base58Digits, if_pos (all_contains_iff.mpr hmem), List.map_map]
  refine congrArg some ((List.map_congr_left ?_).trans (List.map_id ds))
  intro d hd
  exact idxOf_base58Char (h d hd)

theorem of_base58Digits {s : CString} {ds : List ℕ} (h : base58Digits s = some ds) :
    ds.map base58Char = s ∧ (∀ d ∈ ds, d < 58) ∧ ds.length = s.length := by
  unfold base58Digits at h
  split_ifs at h with hall
  have hs := all_contains_iff.mp hall
  obtain rfl := Option.some.inj h
  refine ⟨?_, ?_, List.length_map _⟩
  · rw [List.map_map]
    exact (List.map_congr_left fun a ha => base58Char_idxOf (hs a ha)).trans (List.map_id s)
  · intro d hd
    obtain ⟨a, ha, rfl⟩ := List.mem_map.mp hd
    rw [← length_base58Alphabet]
    exact List.idxOf_lt_length_iff.mpr (hs a ha)

/-! ### Bytes and digits -/

theorem byteDigits_lt (data : List UInt8) : ∀ d ∈ byteDigits data, d < 256 := by
  intro d hd
  obtain ⟨a, -, rfl⟩ := List.mem_map.mp hd
  exact a.toNat_lt

@[simp] theorem length_byteDigits (data : List UInt8) : (byteDigits data).length = data.length :=
  List.length_map _

theorem digitBytes_byteDigits (data : List UInt8) : digitBytes (byteDigits data) = data := by
  rw [digitBytes, byteDigits, List.map_map]
  exact (List.map_congr_left fun a _ => UInt8.ofNat_toNat).trans (List.map_id data)

theorem byteDigits_digitBytes {ds : List ℕ} (h : ∀ d ∈ ds, d < 256) :
    byteDigits (digitBytes ds) = ds := by
  rw [digitBytes, byteDigits, List.map_map]
  refine (List.map_congr_left ?_).trans (List.map_id ds)
  intro d hd
  exact UInt8.toNat_ofNat_of_lt' (h d hd)

theorem beValue_cons (a : UInt8) (data : List UInt8) :
    beValue (a :: data) = a.toNat * 256 ^ data.length + beValue data := by
  rw [beValue, byteDigits, List.map_cons, value_cons, List.length_map]
  rfl

theorem beValue_lt (data : List UInt8) : beValue data < 256 ^ data.length := by
  have h := value_lt (b := 256) (by decide) (byteDigits_lt data)
  rwa [length_byteDigits] at h

/-- Equal lengths and values: equal bytes. -/
theorem beValue_inj {data data' : List UInt8} (hlen : data.length = data'.length)
    (h : beValue data = beValue data') : data = data' := by
  have e : byteDigits data = byteDigits data' := by
    have := Nat.ofDigits_inj_of_len_eq (b := 256) (by decide) (by simp [hlen])
      (fun d hd => byteDigits_lt data d (List.mem_reverse.mp hd))
      (fun d hd => byteDigits_lt data' d (List.mem_reverse.mp hd)) h
    exact List.reverse_injective this
  rw [← digitBytes_byteDigits data, e, digitBytes_byteDigits]

/-! ### Encoding -/

theorem base58Digits_encode (data : List UInt8) :
    base58Digits (base58Encode data) = some (transcode 256 58 (byteDigits data)) :=
  base58Digits_map (transcode_lt (by decide))

/-- A string of base58 characters is the encoding of the bytes it decodes to. -/
theorem base58Encode_digitBytes {s : CString} {ds : List ℕ} (h : base58Digits s = some ds) :
    base58Encode (digitBytes (transcode 58 256 ds)) = s := by
  obtain ⟨hs, hlt, -⟩ := of_base58Digits h
  rw [base58Encode, byteDigits_digitBytes (transcode_lt (by decide)),
    transcode_transcode (by decide) hlt, hs]

theorem base58Encode_injective {data data' : List UInt8} (h : base58Encode data = base58Encode data') :
    data = data' := by
  have hds := base58Digits_encode data
  rw [h, base58Digits_encode data', Option.some.injEq] at hds
  rw [← digitBytes_byteDigits data, ← digitBytes_byteDigits data',
    ← transcode_transcode (b := 256) (c := 58) (by decide) (byteDigits_lt data), ← hds,
    transcode_transcode (by decide) (byteDigits_lt data')]

/-- The digits a byte string takes, from a bound for each number of digits. -/
theorem length_base58Encode_le (data : List UInt8) {L : ℕ}
    (hL : ∀ m ≤ data.length, 256 ^ m ≤ 58 ^ (m + L)) :
    (base58Encode data).length ≤ data.length + L := by
  have h := length_transcode_le (b := 256) (c := 58) (L := L) (by decide) (by decide)
    (byteDigits_lt data) (by simpa using hL)
  rw [length_byteDigits] at h
  rwa [base58Encode, List.length_map]

end Cryptochan
