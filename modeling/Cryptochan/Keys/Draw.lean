import Cryptochan.Keys.Keygen
import Cryptochan.Random.Fill
import Cryptochan.Random.Seed

/-!
# Cryptochan.Keys.Draw — the keys that `keygen_display` can print

`keygen_display` with `fill_random` below it.  Over `getrandom` every good private key comes up
(`keygenKeys_getrandom`).  Over the generator the first byte is even and the draw is not zero: there
is no shift and no failure, and the keys are as many as the seeds (`keygenKeys_prng`).
-/

namespace Cryptochan

open Radix

variable {P : Type}

/-- `keygen_display` over `fill_random`: what `fill_random` printed, then what `keygen_display` leaves.
`stack` is what was in the 32 bytes before. -/
def keygenRun (b58 : Libbase58) (ec : Secp256k1 P) (malloc : ℕ → Bool) (doUsePrng : Bool)
    (host : HostRandom) (stack : Region) (rounds : ℕ) : Option (List CString × KeygenOutput) :=
  (fillRandom doUsePrng host stack 32 rounds).map fun r =>
    (r.stderr,
      keygenDisplay b58 ec malloc (if r.result = 32 then some (bytes r.buf 32) else none))

/-- The output is a key pair with the key bytes `k`, which the decoders of the loader take back. -/
def PrintsKey [DecidableEq P] (b58 : Libbase58) (ec : Secp256k1 P) (out : KeygenOutput)
    (k : List UInt8) : Prop :=
  ∃ privateKey publicKey p, out = ⟨keyPairText privateKey publicKey, [], true⟩ ∧
    decodeB58Privkey b58 ec privateKey true = .ok (k, some p) ∧
    decodeB58Pubkey b58 ec publicKey = .ok p ∧ checkPubkeyBelongsToPrivkey ec k p = true

/-- What a run over `getrandom` comes to, with the bytes of `n` good calls. -/
inductive KeygenOutcome [DecidableEq P] (b58 : Libbase58) (ec : Secp256k1 P) (host : HostRandom)
    (n : ℕ) : List CString × KeygenOutput → Prop where
  | refused : host.answer 32 n < 0 → (host.drawn 32 n).length < 32 →
      KeygenOutcome b58 ec host n ([ascii "failed to fill random data"],
        ⟨[], ascii "FATAL: failed to fill random private key data.\n", false⟩)
  | zero : host.drawn 32 n = List.replicate 32 0 →
      KeygenOutcome b58 ec host n ([], ⟨[], ascii "FATAL: could not generate key pair.\n", false⟩)
  | printed (out : KeygenOutput) : (host.drawn 32 n).length = 32 →
      host.drawn 32 n ≠ List.replicate 32 0 → PrintsKey b58 ec out (keyOfDraw (host.drawn 32 n)) →
      KeygenOutcome b58 ec host n ([], out)

section Draw

variable [DecidableEq P] {b58 : Libbase58} {ec : Secp256k1 P} {malloc : ℕ → Bool}

theorem keygenDisplay_printsKey (laws : b58.Laws) (secret : ec.SecretLaws) (created : ec.CreatedLaw)
    (hmalloc : ∀ n, malloc n = true) {draw : List UInt8} (hlen : draw.length = 32)
    (h : draw ≠ List.replicate 32 0) :
    PrintsKey b58 ec (keygenDisplay b58 ec malloc (some draw)) (keyOfDraw draw) := by
  obtain ⟨privateKey, publicKey, p, hrun, hpriv, -, hpub, hcheck⟩ :=
    keygenDisplay_prints laws secret created hmalloc hlen h
  exact ⟨privateKey, publicKey, p, hrun, hpriv, hpub, hcheck⟩

/-- The printed key bytes are a private key. -/
theorem PrintsKey.isPrivateKey (laws : b58.Laws) (secret : ec.SecretLaws) {out : KeygenOutput}
    {k : List UInt8} (h : PrintsKey b58 ec out k) : IsPrivateKey k := by
  obtain ⟨privateKey, -, p, -, hpriv, -⟩ := h
  exact (of_decodeB58Privkey laws secret hpriv).1

/-- A base58 string has no quote in it. -/
theorem quote_notMem_base58Encode (data : List UInt8) : 0x22 ∉ base58Encode data := by
  intro h
  obtain ⟨d, hd, hc⟩ := List.mem_map.mp h
  have hmem := base58Char_mem (transcode_lt (b := 256) (c := 58) (by decide) d hd)
  rw [hc] at hmem
  exact absurd hmem (by decide +kernel)

/-- A key stands before the first quote. -/
theorem takeWhile_quote (data : List UInt8) (rest : CString) :
    (base58Encode data ++ 0x22 :: rest).takeWhile (· != 0x22) = base58Encode data := by
  rw [List.takeWhile_append_of_pos]
  · simp
  · intro a ha
    simp only [bne_iff_ne]
    rintro rfl
    exact quote_notMem_base58Encode data ha

/-- The text decides the key. -/
theorem PrintsKey.unique (laws : b58.Laws) (secret : ec.SecretLaws) {out : KeygenOutput}
    {k k' : List UInt8} (h : PrintsKey b58 ec out k) (h' : PrintsKey b58 ec out k') : k = k' := by
  obtain ⟨s, t, p, rfl, hs, -⟩ := h
  obtain ⟨s', t', p', hout, hs', -⟩ := h'
  obtain ⟨-, rfl⟩ := of_decodeB58Privkey laws secret hs
  obtain ⟨-, rfl⟩ := of_decodeB58Privkey laws secret hs'
  have htext : keyPairText (base58Encode k) t = keyPairText (base58Encode k') t' :=
    congrArg KeygenOutput.file hout
  have hquote : ascii "\";\n" = 0x22 :: ascii ";\n" := by decide
  simp only [keyPairText, List.append_assoc, hquote, List.cons_append] at htext
  have hkey := congrArg (List.takeWhile (· != 0x22)) (List.append_cancel_left htext)
  rw [takeWhile_quote, takeWhile_quote] at hkey
  exact base58Encode_injective hkey

/-! ### Over `getrandom` -/

/-- **What a run of `keygen_display` over `getrandom` comes to.** -/
theorem keygenRun_getrandom (laws : b58.Laws) (secret : ec.SecretLaws) (created : ec.CreatedLaw)
    (hmalloc : ∀ n, malloc n = true) (host : HostRandom) (law : host.Law) (stack : Region) :
    ∃ n r, keygenRun b58 ec malloc false host stack 32 = some r ∧
      (∀ i < n, 0 < host.answer 32 i) ∧ KeygenOutcome b58 ec host n r := by
  obtain ⟨n, r, hfill, hgood, hbytes, -, hresult⟩ :=
    fillRandom_getrandom law stack 32
  refine ⟨n, _, congrArg (Option.map _) hfill, hgood, ?_⟩
  rcases hresult with ⟨hr, hlen, hlog⟩ | ⟨hneg, hlt, hr, hlog⟩
  · rw [hlen] at hbytes
    have hr' : r.result = 32 := hr
    simp only [hlog, if_pos hr', hbytes]
    by_cases hzero : host.drawn 32 n = List.replicate 32 0
    · rw [hzero]
      simp only [keygenDisplay, generateKeyPair_zero secret]
      exact .zero hzero
    · exact .printed _ hlen hzero (keygenDisplay_printsKey laws secret created hmalloc hlen hzero)
  · have hne : ¬ r.result = 32 := by omega
    simp only [hlog, if_neg hne]
    exact .refused (hr ▸ hneg) hlt

/-- A kernel that gives the bytes of `k` at once. -/
def givingHost (k : List UInt8) : HostRandom where
  tvSec _ := 0
  tvUsec _ := 0
  pid := 1
  getrandom _ max := (max, fun i => k.getD i 0)

theorem bytes_getD (k : List UInt8) : bytes (fun i => k.getD i 0) k.length = k := by
  refine List.ext_getElem (by simp) ?_
  intro i h1 h2
  rw [getElem_bytes, List.getD_eq_getElem _ _ h2]

omit [DecidableEq P] in
theorem keygenRun_givingHost {k : List UInt8} (hlen : k.length = 32) (stack : Region) :
    keygenRun b58 ec malloc false (givingHost k) stack 32 =
      some ([], keygenDisplay b58 ec malloc (some k)) := by
  have hbytes : bytes (stack.splice 0 (memcpy (stack.from 0) 0 (fun i => k.getD i 0) 0 32)) 32 = k := by
    have h := bytes_splice stack (memcpy (stack.from 0) 0 (fun i => k.getD i 0) 0 32) 0 32
    rw [Nat.zero_add, bytes_memcpy, ← hlen, bytes_getD] at h
    rw [← hlen]
    exact h
  have hfill : fillRandom false (givingHost k) stack 32 32 =
      some ⟨stack.splice 0 (memcpy (stack.from 0) 0 (fun i => k.getD i 0) 0 32), 32, []⟩ := rfl
  rw [keygenRun, hfill, Option.map_some, if_pos rfl, hbytes]

/-! ### Over the generator -/

/-- A time and a process number as the system gives them. -/
def HostRandom.Clock (host : HostRandom) : Prop :=
  0 < host.pid ∧ ∀ i, 0 ≤ host.tvSec i ∧ 0 ≤ host.tvUsec i ∧ host.tvUsec i < 1000000

/-- A draw of the generator is below the group order as it is, and not zero. -/
theorem prngFills_isPrivateKey {stack : Region} {draw : List UInt8} (h : draw ∈ prngFills stack 32) :
    IsPrivateKey draw := by
  obtain ⟨heven, hne⟩ := prngFills_head (by decide) h
  have hlen : draw.length = 32 := by
    obtain ⟨_, _, _, -, -, -, -, rfl⟩ := h
    simp
  refine ⟨hlen, ?_, ?_⟩
  · refine Nat.pos_of_ne_zero fun h0 => hne ?_
    rw [(beValue_eq_zero_iff hlen).mp h0]
    rfl
  · obtain ⟨b, rest, rfl⟩ := List.exists_cons_of_length_eq_add_one hlen
    have hrest : rest.length = 31 := by simpa using hlen
    have hlt := beValue_lt rest
    rw [beValue_cons, hrest]
    rw [hrest] at hlt
    have hb : b.toNat % 2 = 0 := heven
    have hb' := b.toNat_lt
    -- an even first byte is at most `0xfe`
    unfold secp256k1Order
    omega

omit [DecidableEq P] in
theorem keygenRun_prng (host : HostRandom) (stack : Region) :
    keygenRun b58 ec malloc true host stack 32 = some ([], keygenDisplay b58 ec malloc
      (some (bytes (fillPrngRandom (host.tvSec 0) host.pid (host.tvUsec 0) stack 32).1 32))) := by
  rw [keygenRun, fillRandom_prng host stack (by decide) (by decide), Option.map_some]
  rfl

/-! ### Both -/

/-- The key bytes that some run prints. -/
def keygenKeys (b58 : Libbase58) (ec : Secp256k1 P) (malloc : ℕ → Bool) (doUsePrng : Bool)
    (stack : Region) : Set (List UInt8) :=
  {k | ∃ host out, host.Law ∧ host.Clock ∧
    keygenRun b58 ec malloc doUsePrng host stack 32 = some ([], out) ∧ PrintsKey b58 ec out k}

theorem keyOfDraw_of_isPrivateKey {k : List UInt8} (hk : IsPrivateKey k) : keyOfDraw k = k :=
  if_pos hk.2.2

theorem isPrivateKey_ne_zero {k : List UInt8} (hk : IsPrivateKey k) : k ≠ List.replicate 32 0 := by
  rintro rfl
  have h := hk.2.1
  rw [beValue_replicate_zero] at h
  exact Nat.lt_irrefl 0 h

theorem printsKey_of_isPrivateKey (laws : b58.Laws) (secret : ec.SecretLaws)
    (created : ec.CreatedLaw) (hmalloc : ∀ n, malloc n = true) {k : List UInt8}
    (hk : IsPrivateKey k) : PrintsKey b58 ec (keygenDisplay b58 ec malloc (some k)) k := by
  have h := keygenDisplay_printsKey laws secret created hmalloc hk.1 (isPrivateKey_ne_zero hk)
  rwa [keyOfDraw_of_isPrivateKey hk] at h

/-- Whatever the source of the draw, what is printed is a private key. -/
theorem keygenKeys_subset (laws : b58.Laws) (secret : ec.SecretLaws) (doUsePrng : Bool)
    (stack : Region) :
    keygenKeys b58 ec malloc doUsePrng stack ⊆ {k | IsPrivateKey k} := by
  rintro k ⟨_, _, -, -, -, hk⟩
  exact hk.isPrivateKey laws secret

theorem keygenKeys_getrandom (laws : b58.Laws) (secret : ec.SecretLaws) (created : ec.CreatedLaw)
    (hmalloc : ∀ n, malloc n = true) (stack : Region) :
    keygenKeys b58 ec malloc false stack = {k | IsPrivateKey k} := by
  apply Set.Subset.antisymm (keygenKeys_subset laws secret false stack)
  intro k hk
  refine ⟨givingHost k, _, ?_, ?_, keygenRun_givingHost hk.1 stack,
    printsKey_of_isPrivateKey laws secret created hmalloc hk⟩
  · intro i max hmax
    simp only [givingHost]
    omega
  · exact ⟨Int.one_pos, fun _ => ⟨Int.le_refl 0, Int.le_refl 0, show (0 : ℤ) < 1000000 by decide⟩⟩

theorem keygenKeys_prng (laws : b58.Laws) (secret : ec.SecretLaws) (created : ec.CreatedLaw)
    (hmalloc : ∀ n, malloc n = true) (stack : Region) :
    keygenKeys b58 ec malloc true stack = prngFills stack 32 := by
  ext k
  constructor
  · rintro ⟨host, out, -, ⟨hpid, hclock⟩, hrun, hk⟩
    obtain ⟨hsec, husec, husec'⟩ := hclock 0
    have hmem : bytes (fillPrngRandom (host.tvSec 0) host.pid (host.tvUsec 0) stack 32).1 32 ∈
        prngFills stack 32 := ⟨_, _, _, hsec, hpid, husec, husec', rfl⟩
    rw [keygenRun_prng] at hrun
    obtain rfl := (Prod.mk.inj (Option.some.inj hrun)).2
    have hdraw := printsKey_of_isPrivateKey laws secret created hmalloc (prngFills_isPrivateKey hmem)
    rwa [hk.unique laws secret hdraw]
  · intro hmem
    have hk := prngFills_isPrivateKey hmem
    obtain ⟨tvSec, pid, tvUsec, hsec, hpid, husec, husec', hfill⟩ := hmem
    refine ⟨⟨fun _ => tvSec, fun _ => tvUsec, pid, fun _ max => (max, stack)⟩, _, ?_,
      ⟨hpid, fun _ => ⟨hsec, husec, husec'⟩⟩, keygenRun_prng _ stack, ?_⟩
    · intro i max hmax
      simp only
      omega
    · rw [← hfill]
      exact printsKey_of_isPrivateKey laws secret created hmalloc hk

/-- **The keys `keygen` can print.**  Over `getrandom` they are all the private keys.  With `--prng`
there are `2 ^ 32`, and no run fails. -/
theorem keygenRun_keys (laws : b58.Laws) (secret : ec.SecretLaws) (created : ec.CreatedLaw)
    (hmalloc : ∀ n, malloc n = true) (stack : Region) :
    keygenKeys b58 ec malloc false stack = {k | IsPrivateKey k} ∧
    (keygenKeys b58 ec malloc true stack).ncard = 2 ^ 32 ∧
    ∀ host : HostRandom, host.Clock → ∃ out k,
      keygenRun b58 ec malloc true host stack 32 = some ([], out) ∧ PrintsKey b58 ec out k := by
  refine ⟨keygenKeys_getrandom laws secret created hmalloc stack, ?_, ?_⟩
  · rw [keygenKeys_prng laws secret created hmalloc, ncard_prngFills stack (by decide)]
  · rintro host ⟨hpid, hclock⟩
    obtain ⟨hsec, husec, husec'⟩ := hclock 0
    refine ⟨_, _, keygenRun_prng host stack, printsKey_of_isPrivateKey laws secret created hmalloc
      (prngFills_isPrivateKey ⟨_, _, _, hsec, hpid, husec, husec', rfl⟩)⟩

end Draw

theorem keygenRun_getrandom_shortHost : ∃ n r,
    keygenRun sampleLibbase58 sampleSecp256k1 (fun _ => true) false shortHost (fun _ => 0) 32 = some r ∧
      (∀ i < n, 0 < shortHost.answer 32 i) ∧
      KeygenOutcome sampleLibbase58 sampleSecp256k1 shortHost n r :=
  keygenRun_getrandom sampleLibbase58_laws sampleSecp256k1_secretLaws sampleSecp256k1_createdLaw
    (fun _ => rfl) shortHost shortHost_law (fun _ => 0)

theorem keygenRun_keys_sample : (keygenKeys sampleLibbase58 sampleSecp256k1 (fun _ => true) true
    (fun _ => 0)).ncard = 2 ^ 32 :=
  (keygenRun_keys sampleLibbase58_laws sampleSecp256k1_secretLaws sampleSecp256k1_createdLaw
    (fun _ => rfl) (fun _ => 0)).2.1

end Cryptochan
