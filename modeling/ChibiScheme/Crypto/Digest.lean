import ChibiScheme.Crypto.Sha2

/-!
# The digest of pieces

The digest of a message in pieces is that of the whole message, the iteration of the compression
function over the padded message, unless a remainder is left behind the chunk that it follows.
-/

namespace ChibiScheme.Crypto

open Blocks List

variable {H : Type} {round : List UInt8 → H → H} {buffer src c : List UInt8} {h₀ : H}
  {pieces ls : List (List UInt8)}

/-! ## Padding -/

theorem length_bigEndian (count n : ℕ) : (bigEndian count n).length = count := by
  induction count generalizing n with
  | zero => rfl
  | succ count ih => rw [bigEndian, length_append, ih, length_singleton]

/-- The bit that follows the message, as many zeros as are needed, and the length in bits. -/
def paddingBytes (length lenBits : ℕ) : List UInt8 :=
  0x80 :: (List.replicate ((119 - length % 64) % 64) 0 ++ bigEndian 8 lenBits)

/-- The padded message of the standard. -/
def rfcPadding (m : List UInt8) : List UInt8 :=
  m ++ paddingBytes m.length (m.length * 8)

theorem length_paddingBytes (length lenBits : ℕ) :
    (paddingBytes length lenBits).length = (119 - length % 64) % 64 + 9 := by
  unfold paddingBytes
  rw [length_cons, length_append, length_replicate, length_bigEndian]

theorem take_bit_zeros {offset : ℕ} (hlength : buffer.length = 128) (hoffset : offset < 64) :
    (writeAt (writeAt buffer offset [0x80]) (offset + 1) (List.replicate (64 - offset - 1) 0)).length
        = 128 ∧
      (writeAt (writeAt buffer offset [0x80]) (offset + 1)
        (List.replicate (64 - offset - 1) 0)).take 64 =
          buffer.take offset ++ 0x80 :: List.replicate (63 - offset) 0 := by
  have hfirst : (writeAt buffer offset [0x80]).length = 128 := by
    rw [length_writeAt]
    · exact hlength
    · rw [length_singleton]
      omega
  have hbit : (writeAt buffer offset [0x80]).take (offset + 1) = buffer.take offset ++ [0x80] :=
    take_writeAt (by omega) rfl
  have hcount : 64 - offset - 1 = 63 - offset := by omega
  refine ⟨?_, ?_⟩
  · rw [length_writeAt]
    · exact hfirst
    · rw [length_replicate]
      omega
  · rw [take_writeAt (by omega) (by rw [length_replicate]; omega), hbit, hcount,
      append_assoc, singleton_append]

theorem remainder_blocks {length lenBits : ℕ} (hlength : buffer.length = 128) (h : H) :
    (sha224256Remainder round buffer (length % 64) lenBits h).2 =
      iterate 64 round ((length % 64 + (paddingBytes length lenBits).length) / 64)
        (buffer.take (length % 64) ++ paddingBytes length lenBits) h := by
  have hoffset : length % 64 < 64 := Nat.mod_lt _ (by decide)
  obtain ⟨hfilled, hzeros⟩ := take_bit_zeros hlength hoffset
  have htake : (buffer.take (length % 64)).length = length % 64 := by
    rw [length_take]
    omega
  have hbits : (bigEndian 8 lenBits).length = 8 := length_bigEndian 8 lenBits
  rw [length_paddingBytes]
  unfold sha224256Remainder
  simp only
  split
  · rename_i hadditional
    -- the length needs a chunk of its own
    have hcount : (length % 64 + ((119 - length % 64) % 64 + 9)) / 64 = 1 + 1 := by omega
    have hpadding : buffer.take (length % 64) ++ paddingBytes length lenBits =
        (buffer.take (length % 64) ++ 0x80 :: List.replicate (63 - length % 64) 0) ++
          (List.replicate 56 0 ++ bigEndian 8 lenBits) := by
      unfold paddingBytes
      have hsplit : (119 - length % 64) % 64 = 63 - length % 64 + 56 := by omega
      rw [hsplit, ← replicate_append_replicate, append_assoc, append_assoc, cons_append]
    have hblock : (buffer.take (length % 64) ++
        0x80 :: List.replicate (63 - length % 64) 0).length = 64 := by
      rw [length_append, length_cons, length_replicate, htake]
      omega
    have hlast : (writeAt (writeAt (writeAt (writeAt buffer (length % 64) [0x80]) (length % 64 + 1)
        (List.replicate (64 - length % 64 - 1) 0)) 0 (List.replicate 64 0)) 56
          (bigEndian 8 lenBits)).take 64 = List.replicate 56 0 ++ bigEndian 8 lenBits := by
      rw [take_writeAt _ (by omega)]
      · have hclear : (writeAt (writeAt (writeAt buffer (length % 64) [0x80]) (length % 64 + 1)
            (List.replicate (64 - length % 64 - 1) 0)) 0 (List.replicate 64 0)).take 64 =
              List.replicate 64 0 := take_writeAt (Nat.zero_le _) (by rw [length_replicate])
        have hshort := congrArg (List.take 56) hclear
        rw [take_take, take_replicate] at hshort
        exact congrArg (· ++ bigEndian 8 lenBits) hshort
      · rw [length_writeAt]
        · omega
        · rw [length_replicate]
          omega
    have hwhole : (List.replicate 56 0 ++ bigEndian 8 lenBits).take 64 =
        List.replicate 56 0 ++ bigEndian 8 lenBits := by
      apply take_of_length_le
      rw [length_append, length_replicate, hbits]
    dsimp only
    rw [hcount, Blocks.iterate_add, iterate_one, iterate_one, hpadding, take_left' hblock,
      drop_left' hblock, hzeros, hlast, hwhole]
  · rename_i hsingle
    have hcount : (length % 64 + ((119 - length % 64) % 64 + 9)) / 64 = 1 := by omega
    have hpadding : buffer.take (length % 64) ++ paddingBytes length lenBits =
        (buffer.take (length % 64) ++ 0x80 :: List.replicate (63 - length % 64) 0).take 56 ++
          bigEndian 8 lenBits := by
      unfold paddingBytes
      have hsplit : (119 - length % 64) % 64 = 55 - length % 64 := by omega
      have hpre : (buffer.take (length % 64) ++
          0x80 :: List.replicate (63 - length % 64) 0).take 56 =
            buffer.take (length % 64) ++ 0x80 :: List.replicate (55 - length % 64) 0 := by
        rw [take_append, htake, take_of_length_le (by omega)]
        obtain ⟨k, hk⟩ : ∃ k, 56 - length % 64 = k + 1 := ⟨55 - length % 64, by omega⟩
        rw [hk, take_succ_cons, take_replicate]
        congr 3
        omega
      rw [hpre, hsplit, append_assoc, cons_append]
    have hlast : (writeAt (writeAt (writeAt buffer (length % 64) [0x80]) (length % 64 + 1)
        (List.replicate (64 - length % 64 - 1) 0)) 56 (bigEndian 8 lenBits)).take 64 =
          (buffer.take (length % 64) ++ 0x80 :: List.replicate (63 - length % 64) 0).take 56 ++
            bigEndian 8 lenBits := by
      rw [take_writeAt (by omega) (by omega), ← hzeros, take_take]
      rfl
    have hwhole : ((buffer.take (length % 64) ++
        0x80 :: List.replicate (63 - length % 64) 0).take 56 ++ bigEndian 8 lenBits).take 64 =
          (buffer.take (length % 64) ++ 0x80 :: List.replicate (63 - length % 64) 0).take 56 ++
            bigEndian 8 lenBits := by
      apply take_of_length_le
      rw [length_append, length_take, hbits]
      omega
    dsimp only
    rw [hcount, iterate_one, hpadding, hlast, hwhole]

/-- Sealing hashes the padded message. -/
theorem sealContext_spec {sha : ShaContext H} (hsha : Holds round h₀ sha c) :
    (sealContext round sha).isSealed = true ∧ (sealContext round sha).type = sha.type ∧
      (sealContext round sha).hash256 =
        iterate 64 round ((c ++ paddingBytes c.length (c.length * 8 % 2 ^ 64)).length / 64)
          (c ++ paddingBytes c.length (c.length * 8 % 2 ^ 64)) h₀ := by
  have hoffset : sha.len % 64 = c.length % 64 := by
    rw [hsha.len, Nat.mod_mod_of_dvd]
    decide
  have hbits : sha.len * 8 % 2 ^ 64 = c.length * 8 % 2 ^ 64 := by
    rw [hsha.len, Nat.mod_mul_mod]
  have hrest : (c ++ paddingBytes c.length (c.length * 8 % 2 ^ 64)).drop (64 * (c.length / 64)) =
      sha.buffer.take (c.length % 64) ++ paddingBytes c.length (c.length * 8 % 2 ^ 64) := by
    rw [hsha.buffer, drop_append_of_le_length (by omega)]
  have hcount : (c ++ paddingBytes c.length (c.length * 8 % 2 ^ 64)).length / 64 =
      c.length / 64 +
        (c.length % 64 + (paddingBytes c.length (c.length * 8 % 2 ^ 64)).length) / 64 := by
    rw [length_append]
    omega
  unfold sealContext
  rw [if_neg (by rw [hsha.isSealed]; decide)]
  refine ⟨rfl, rfl, ?_⟩
  simp only [hoffset, hbits]
  have hbefore : iterate 64 round (c.length / 64)
      (c ++ paddingBytes c.length (c.length * 8 % 2 ^ 64)) h₀ =
        iterate 64 round (c.length / 64) c h₀ := iterate_of_append (by omega) h₀
  rw [remainder_blocks hsha.length, hcount, Blocks.iterate_add, hrest, hbefore, hsha.hash256]

/-! ## Pieces -/

/-- The bytes of the last chunk, which is not complete. -/
def remainder (m : List UInt8) : List UInt8 :=
  m.drop (64 * (m.length / 64))

/-- Whenever a piece completes a chunk that the pieces before it have begun, the remainder behind the
last whole chunk repeats the start of that chunk. -/
def RemaindersRepeat : List UInt8 → List (List UInt8) → Prop
  | _, [] => True
  | m, piece :: pieces =>
    (m.length % 64 ≠ 0 ∧ 64 ≤ m.length % 64 + piece.length →
      ((m ++ piece).drop (64 * (m.length / 64))).take ((m ++ piece).length % 64) =
        remainder (m ++ piece)) ∧
      RemaindersRepeat (m ++ piece) pieces

theorem accepted_eq_append_iff (c src : List UInt8) : accepted c src = c ++ src ↔
    (c.length % 64 ≠ 0 ∧ 64 ≤ c.length % 64 + src.length →
      ((c ++ src).drop (64 * (c.length / 64))).take ((c ++ src).length % 64) =
        remainder (c ++ src)) := by
  unfold accepted remainder
  split
  · rename_i hfilled
    rw [imp_iff_right hfilled]
    conv_lhs => rhs; rw [← take_append_drop (64 * ((c ++ src).length / 64)) (c ++ src)]
    exact append_right_inj _
  · rename_i hother
    exact iff_of_true rfl fun h => absurd h hother

theorem prefix_accepted (c src : List UInt8) : c <+: accepted c src := by
  unfold accepted
  split
  · rename_i hfilled
    have hle : c.length ≤ 64 * ((c ++ src).length / 64) := by
      rw [length_append]
      omega
    rw [take_append, take_of_length_le hle, append_assoc]
    exact prefix_append _ _
  · exact prefix_append _ _

theorem prefix_foldl_accepted (c : List UInt8) (pieces : List (List UInt8)) :
    c <+: pieces.foldl accepted c := by
  induction pieces generalizing c with
  | nil => exact prefix_refl c
  | cons piece pieces ih => exact (prefix_accepted c piece).trans (ih _)

theorem length_foldl_accepted (c : List UInt8) (pieces : List (List UInt8)) :
    (pieces.foldl accepted c).length = c.length + pieces.flatten.length := by
  induction pieces generalizing c with
  | nil => rfl
  | cons piece pieces ih =>
    rw [foldl_cons, ih, length_accepted, flatten_cons, length_append]
    omega

theorem foldl_accepted_eq_iff (c : List UInt8) (pieces : List (List UInt8)) :
    pieces.foldl accepted c = c ++ pieces.flatten ↔ RemaindersRepeat c pieces := by
  induction pieces generalizing c with
  | nil => simp [RemaindersRepeat]
  | cons piece pieces ih =>
    rw [foldl_cons, flatten_cons, ← append_assoc, RemaindersRepeat, ← accepted_eq_append_iff]
    constructor
    · intro heq
      -- what was taken first is still at the start
      have hpre := prefix_foldl_accepted (accepted c piece) pieces
      rw [heq] at hpre
      have hfirst : accepted c piece = c ++ piece := by
        apply (prefix_of_prefix_length_le hpre (prefix_append _ _) ?_).eq_of_length
        · rw [length_accepted, length_append]
        · rw [length_accepted, length_append]
      rw [hfirst] at heq
      exact ⟨hfirst, (ih _).mp heq⟩
    · rintro ⟨hfirst, hrest⟩
      rw [hfirst]
      exact (ih _).mpr hrest

theorem remaindersRepeat_single (m : List UInt8) : RemaindersRepeat [] [m] :=
  ⟨fun h => absurd rfl h.1, trivial⟩

theorem holds_foldl {sha : ShaContext H} (hsha : Holds round h₀ sha c)
    (pieces : List (List UInt8)) :
    Holds round h₀ (pieces.foldl (sha224256AddBytes round) sha) (pieces.foldl accepted c) := by
  induction pieces generalizing sha c with
  | nil => exact hsha
  | cons piece pieces ih => exact ih (holds_addBytes hsha piece)

theorem type_foldl (sha : ShaContext H) (pieces : List (List UInt8)) :
    (pieces.foldl (sha224256AddBytes round) sha).type = sha.type := by
  induction pieces generalizing sha with
  | nil => rfl
  | cons piece pieces ih =>
    rw [foldl_cons, ih]
    unfold sha224256AddBytes addWholeChunks
    simp only
    split
    · split <;> rfl
    · rfl

/-- The chunks that are hashed. -/
def chunksOf (pieces : List (List UInt8)) : List (List UInt8) :=
  (sealContext record (pieces.foldl (sha224256AddBytes record) (startContext .sha256 []))).hash256

theorem flatten_chunksOf (pieces : List (List UInt8)) :
    (chunksOf pieces).flatten = pieces.foldl accepted [] ++
      paddingBytes pieces.flatten.length (pieces.flatten.length * 8 % 2 ^ 64) := by
  have hlength := length_foldl_accepted [] pieces
  rw [length_nil, Nat.zero_add] at hlength
  have hsha : Holds record [] (pieces.foldl (sha224256AddBytes record) (startContext .sha256 []))
      (pieces.foldl accepted []) := holds_foldl (holds_startContext _ _) pieces
  obtain ⟨-, -, hhash⟩ := sealContext_spec hsha
  unfold chunksOf
  rw [hhash, flatten_iterate_record, flatten_nil, nil_append, hlength]
  apply take_of_length_le
  rw [length_append, length_paddingBytes, hlength]
  omega

theorem chunksOf_eq_iff (pieces : List (List UInt8)) :
    chunksOf pieces = chunksOf [pieces.flatten] ↔ RemaindersRepeat [] pieces := by
  rw [← foldl_accepted_eq_iff, nil_append]
  have hsingle : [pieces.flatten].foldl accepted [] = pieces.flatten := by
    have h := (foldl_accepted_eq_iff [] [pieces.flatten]).mpr (remaindersRepeat_single _)
    rwa [nil_append, flatten_singleton] at h
  constructor
  · intro heq
    have hflatten := congrArg List.flatten heq
    rw [flatten_chunksOf, flatten_chunksOf, flatten_singleton, hsingle] at hflatten
    exact append_cancel_right hflatten
  · intro heq
    have hsha : Holds record [] (pieces.foldl (sha224256AddBytes record) (startContext .sha256 []))
        (pieces.foldl accepted []) := holds_foldl (holds_startContext _ _) pieces
    have hsha' : Holds record []
        ([pieces.flatten].foldl (sha224256AddBytes record) (startContext .sha256 []))
        ([pieces.flatten].foldl accepted []) := holds_foldl (holds_startContext _ _) _
    unfold chunksOf
    rw [(sealContext_spec hsha).2.2, (sealContext_spec hsha').2.2, heq, hsingle]

/-! ## The interface -/

/-- The bytes of a bytevector or string. -/
def Data.contents : Data → Option (List UInt8)
  | bytes data => some data
  | string data => some data
  | other => none

/-- The number of the type in `enum sha_type`. -/
def ShaType.code : ShaType → ℕ
  | sha224 => 0
  | sha256 => 1

/-- The hash before the first chunk. -/
def ShaType.initialHash : ShaType → List UInt32
  | sha224 => h224
  | sha256 => h256

/-- The iteration of the compression function over the padded message. -/
def merkleDamgard (type : ShaType) (m : List UInt8) : List Char :=
  sha224256HashString
    (iterate 64 sha224256Round ((rfcPadding m).length / 64) (rfcPadding m) type.initialHash) type.count

/-- A context after some data. -/
def shaOf (type : ShaType) (pieces : List Data) : Except String (ShaContext (List UInt32)) :=
  (sexpStartSha type.code).bind fun sha => addPieces sha pieces

theorem sexpStartSha_code (type : ShaType) :
    sexpStartSha type.code = .ok (startContext type type.initialHash) := by
  cases type <;> rfl

theorem addPieces_eq {sha : ShaContext (List UInt32)} {data : List Data} {h₀ : List UInt32}
    (hsha : Holds sha224256Round h₀ sha c)
    (hcontents : List.Forall₂ (fun d piece => d.contents = some piece) data pieces) :
    addPieces sha data = .ok (pieces.foldl (sha224256AddBytes sha224256Round) sha) := by
  induction hcontents generalizing sha c with
  | nil => rfl
  | @cons d piece data pieces hd _ ih =>
    have hadd : sexpAddShaData sha d = .ok (sha224256AddBytes sha224256Round sha piece) := by
      unfold sexpAddShaData
      rw [if_neg (by rw [hsha.isSealed]; decide)]
      cases d with
      | bytes data =>
        cases hd
        rfl
      | string data =>
        cases hd
        rfl
      | other => cases hd
    show (sexpAddShaData sha d).bind (fun sha => addPieces sha data) = _
    rw [hadd]
    exact ih (holds_addBytes hsha piece)

theorem sexpGetSha_again (sha : ShaContext (List UInt32)) :
    sexpGetSha (sexpGetSha sha).2 = sexpGetSha sha := by
  have hseal : (sealContext sha224256Round sha).isSealed = true := by
    unfold sealContext
    split
    · assumption
    · rfl
  have hagain : sealContext sha224256Round (sealContext sha224256Round sha) =
      sealContext sha224256Round sha := if_pos hseal
  unfold sexpGetSha
  simp only [hagain]

/-- A context holds all that was added. -/
theorem shaOf_spec (type : ShaType) {data : List Data}
    (hcontents : List.Forall₂ (fun d piece => d.contents = some piece) data pieces) :
    ∃ sha, shaOf type data = .ok sha ∧ sha.type = type ∧
      Holds sha224256Round type.initialHash sha (pieces.foldl accepted []) := by
  have hstart : Holds sha224256Round type.initialHash (startContext type type.initialHash) [] :=
    holds_startContext type type.initialHash
  refine ⟨pieces.foldl (sha224256AddBytes sha224256Round) (startContext type type.initialHash), ?_,
    type_foldl _ _, holds_foldl hstart pieces⟩
  unfold shaOf
  rw [sexpStartSha_code]
  exact addPieces_eq hstart hcontents

theorem digest_eq {sha : ShaContext (List UInt32)} {type : ShaType} (htype : sha.type = type)
    (hsha : Holds sha224256Round type.initialHash sha c) :
    (sexpGetSha sha).1 = sha224256HashString
      (iterate 64 sha224256Round
        ((c ++ paddingBytes c.length (c.length * 8 % 2 ^ 64)).length / 64)
        (c ++ paddingBytes c.length (c.length * 8 % 2 ^ 64)) type.initialHash) type.count := by
  obtain ⟨-, hsealed, hhash⟩ := sealContext_spec hsha
  unfold sexpGetSha
  simp only
  rw [hhash, hsealed, htype]

theorem chunksOf_eq (pieces : List (List UInt8)) :
    chunksOf pieces =
      iterate 64 record
        ((pieces.foldl accepted [] ++ paddingBytes (pieces.foldl accepted []).length
          ((pieces.foldl accepted []).length * 8 % 2 ^ 64)).length / 64)
        (pieces.foldl accepted [] ++ paddingBytes (pieces.foldl accepted []).length
          ((pieces.foldl accepted []).length * 8 % 2 ^ 64)) [] :=
  (sealContext_spec (holds_foldl (holds_startContext _ _) pieces)).2.2

/-- What the digests of pieces and of the whole message have in common. -/
structure Incremental (type : ShaType) (pieces : List (List UInt8))
    (sha whole : ShaContext (List UInt32)) : Prop where
  chunks : (sexpGetSha sha).1 = sha224256HashString
    ((chunksOf pieces).foldl (fun hash chunk => sha224256Round chunk hash) type.initialHash) type.count
  same : chunksOf pieces = chunksOf [pieces.flatten] ↔ RemaindersRepeat [] pieces
  digest : RemaindersRepeat [] pieces → (sexpGetSha sha).1 = (sexpGetSha whole).1
  merkleDamgard : RemaindersRepeat [] pieces → pieces.flatten.length < 2 ^ 61 →
    (sexpGetSha sha).1 = merkleDamgard type pieces.flatten
  again : sexpGetSha (sexpGetSha sha).2 = sexpGetSha sha

/-- The same chunks are compressed as for the whole message exactly if the remainders repeat what is in
their place.  Then the digest is that of the whole message, and stays so. -/
theorem incrementalSha (type : ShaType) {data : List Data}
    (hcontents : List.Forall₂ (fun d piece => d.contents = some piece) data pieces) :
    ∃ sha whole, shaOf type data = .ok sha ∧ shaOf type [.bytes pieces.flatten] = .ok whole ∧
      Incremental type pieces sha whole := by
  obtain ⟨sha, hsha, htype, hholds⟩ := shaOf_spec type hcontents
  have hsingle : List.Forall₂ (fun (d : Data) piece => d.contents = some piece)
      [.bytes pieces.flatten] [pieces.flatten] := .cons rfl .nil
  obtain ⟨whole, hwhole, htype', hholds'⟩ := shaOf_spec type hsingle
  have htaken := (foldl_accepted_eq_iff [] [pieces.flatten]).mpr (remaindersRepeat_single _)
  rw [nil_append, flatten_singleton] at htaken
  refine ⟨sha, whole, hsha, hwhole, ?_, chunksOf_eq_iff pieces, fun hrepeat => ?_,
    fun hrepeat hlt => ?_, sexpGetSha_again sha⟩
  · rw [digest_eq htype hholds, chunksOf_eq, foldl_iterate_record]
    rfl
  · have hall := (foldl_accepted_eq_iff [] pieces).mpr hrepeat
    rw [nil_append] at hall
    rw [digest_eq htype hholds, digest_eq htype' hholds', htaken, hall]
  · have hall := (foldl_accepted_eq_iff [] pieces).mpr hrepeat
    rw [nil_append] at hall
    have hbits : pieces.flatten.length * 8 % 2 ^ 64 = pieces.flatten.length * 8 :=
      Nat.mod_eq_of_lt (by omega)
    rw [digest_eq htype hholds, hall, hbits]
    rfl

/-- Three pieces whose second one ends a chunk. -/
theorem incrementalSha_boundary :
    ∃ sha whole, shaOf .sha256 [.bytes (List.replicate 60 1), .bytes [2, 2, 2, 2], .string [3]] =
        .ok sha ∧
      shaOf .sha256 [.bytes [List.replicate 60 1, [2, 2, 2, 2], [3]].flatten] = .ok whole ∧
      Incremental .sha256 [List.replicate 60 1, [2, 2, 2, 2], [3]] sha whole :=
  incrementalSha .sha256 (.cons rfl (.cons rfl (.cons rfl .nil)))

/-- One byte and then 64 others: the last of them is left behind the first chunk. -/
theorem digest_ne_whole :
    ∃ sha whole, shaOf .sha256 [.bytes [98], .bytes (List.replicate 64 97)] = .ok sha ∧
      shaOf .sha256 [.bytes (98 :: List.replicate 64 97)] = .ok whole ∧
      (sexpGetSha sha).1 ≠ (sexpGetSha whole).1 := by
  refine ⟨_, _, rfl, rfl, ?_⟩
  decide +kernel

end ChibiScheme.Crypto
