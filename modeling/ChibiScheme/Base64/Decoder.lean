import Mathlib.Order.Monotone.Basic
import ChibiScheme.Base64.Decode
import ChibiScheme.Base64.Encoder

/-!
# The decoder on a port

A port is read in chunks, and the characters of a group that is not complete are carried over to the
next chunk.  The output is that of the decoder on the whole input, unless the input has no padding and
ends where a chunk ends: then the next round takes an end-of-file object for a count.
-/

namespace ChibiScheme.Base64

open List Option

variable {input src dst written : List UInt8}

/-! ## A chunk -/

/-- The two buffers of `base64-decode` have the lengths it gives them. -/
structure DecodeBuffers (src dst : List UInt8) : Prop where
  length_src : src.length = decodeSrcLength
  length_dst : dst.length = decodeDstLength

theorem decodeSrcLength_eq : decodeSrcLength = 2964 := by
  decide

theorem decodeDstLength_eq : decodeDstLength = 2223 := by
  decide

/-- The digits that are left go to the front of the next chunk. -/
theorem carryOver_spec {s : Decoded} {d : DecodeState} (hholds : Holds s d)
    (hpending : s.pending.count ≠ 0) (hlength : 3 ≤ src.length) :
    ∃ src', carryOver src d = some (src', s.pending.count) ∧ src'.length = src.length ∧
      s.pending.chars <+: src' := by
  unfold carryOver
  rw [hholds.b1, hholds.b2, hholds.b3]
  obtain ⟨pending, out⟩ := s
  cases pending with
  | none => exact absurd rfl hpending
  | one b₁ =>
    have h₁ := @prefix_set [] src 0 (encChar b₁) nil_prefix rfl (by omega)
    refine ⟨_, ?_, ?_, h₁⟩
    · simp only [Pending.b1, Pending.b2, if_true]
      rw [enc_eq b₁.isLt, bind_eq_bind, bind_some, u8Set_toNat _ (by omega)]
      rfl
    · exact length_set
  | two b₁ b₂ =>
    have h₁ := @prefix_set [] src 0 (encChar b₁) nil_prefix rfl (by omega)
    have h₂ := prefix_set (j := 1) (encChar b₂) h₁ rfl (by rw [length_set]; omega)
    refine ⟨_, ?_, ?_, h₂⟩
    · simp only [Pending.b1, Pending.b2, Pending.b3, (sextet_ne b₂).1, if_true, if_false]
      rw [enc_eq b₁.isLt, bind_eq_bind, bind_some, u8Set_toNat _ (by omega),
        bind_eq_bind, bind_some, enc_eq b₂.isLt, bind_some,
        u8Set_toNat _ (by rw [length_set]; omega)]
      rfl
    · simp only [length_set]
  | three b₁ b₂ b₃ =>
    have h₁ := @prefix_set [] src 0 (encChar b₁) nil_prefix rfl (by omega)
    have h₂ := prefix_set (j := 1) (encChar b₂) h₁ rfl (by rw [length_set]; omega)
    have h₃ := prefix_set (j := 2) (encChar b₃) h₂ rfl
      (by simp only [length_set]; omega)
    refine ⟨_, ?_, ?_, h₃⟩
    · simp only [Pending.b1, Pending.b2, Pending.b3, (sextet_ne b₂).1, (sextet_ne b₃).1, if_false]
      rw [enc_eq b₁.isLt, bind_eq_bind, bind_some, u8Set_toNat _ (by omega),
        bind_eq_bind, bind_some, enc_eq b₂.isLt, bind_some,
        u8Set_toNat _ (by rw [length_set]; omega), bind_some, enc_eq b₃.isLt,
        bind_some, u8Set_toNat _ (by simp only [length_set]; omega)]
      rfl
    · simp only [length_set]

theorem finishRound_spec {s : Decoded} {d : DecodeState} (hholds : Holds s d) :
    finishRound written d = some (.done (s.after written).finish) := by
  obtain ⟨dst, hfinish, -, hpre⟩ := base64DecodeFinish_spec hholds
  unfold finishRound
  rw [hfinish, bind_eq_bind, bind_some]
  show (writeBytevector written dst s.finish.length).bind _ = _
  rw [writeBytevector_eq hpre rfl, bind_some, Decoded.finish_after]

section Chunk

variable {p : Pending} {taken : List UInt8} {n : ℕ}

theorem beforePad_append {bytes bytes' : List UInt8} (hnotMem : pad ∉ bytes) :
    beforePad (bytes ++ bytes') = bytes ++ beforePad bytes' := by
  unfold beforePad
  rw [takeWhile_append_of_pos]
  intro u hmem
  rw [bne_iff_ne]
  rintro rfl
  exact hnotMem hmem

theorem base64DecodeLoop_chunk (hbuffers : DecodeBuffers src dst)
    (hpre : p.chars ++ taken <+: src) (hn : n = p.count + taken.length) :
    ∃ d, base64DecodeLoop src n 0 0 outsideChar outsideChar outsideChar dst = some d ∧
      d.dst.length = decodeDstLength ∧
      Holds (Decoded.feed ⟨p, []⟩ (beforePad taken)) d ∧
      StopsAt src (p.chars ++ taken) n d.srcOffset := by
  have hlength : n = (p.chars ++ taken).length := by
    rw [hn, length_append, p.length_chars]
  have hle : n ≤ 2964 := by
    rw [hlength, ← decodeSrcLength_eq, ← hbuffers.length_src]
    exact hpre.length_le
  have hpart : (src.take n).drop 0 = p.chars ++ taken := by
    rw [drop_zero, hlength, ← prefix_iff_eq_take.mp hpre]
  have hroom : Decoded.start.out.length +
      3 * ((3 + Decoded.start.pending.count + (p.chars ++ taken).length) / 4) ≤ dst.length := by
    rw [hbuffers.length_dst, decodeDstLength_eq, ← hlength]
    show 0 + 3 * ((3 + 0 + n) / 4) ≤ 2223
    omega
  obtain ⟨d, hrun, hdst, hholds, hstops⟩ := base64DecodeLoop_spec (s := Decoded.start) hpart
    (by rw [← hlength, Nat.zero_add]) nil_prefix hroom
  refine ⟨d, hrun, hdst.trans hbuffers.length_dst, ?_, hstops⟩
  rwa [beforePad_append p.pad_notMem_chars, Decoded.feed_append, Decoded.feed_chars] at hholds

theorem feed_written :
    Decoded.feed ⟨p, written⟩ (beforePad taken) =
      (Decoded.feed ⟨p, []⟩ (beforePad taken)).after written := by
  have hafter : (⟨p, written⟩ : Decoded) = Decoded.after ⟨p, []⟩ written := by
    unfold Decoded.after
    rw [append_nil]
  rw [hafter, Decoded.feed_after]

theorem decodeChunk_done (hbuffers : DecodeBuffers src dst)
    (hpre : p.chars ++ taken <+: src) (hn : n = p.count + taken.length)
    (hlast : n ≠ 2964 ∨ pad ∈ taken) :
    decodeChunk src dst written n =
      some (.done (Decoded.feed ⟨p, written⟩ (beforePad taken)).finish) := by
  obtain ⟨d, hrun, -, hholds, hstops⟩ := base64DecodeLoop_chunk hbuffers hpre hn
  rw [feed_written, ← finishRound_spec hholds]
  unfold decodeChunk
  by_cases hfull : n = 2964
  · rw [if_pos (hfull.trans decodeSrcLength_eq.symm), decodeSrcLength_eq, ← hfull, hrun,
      bind_eq_bind, bind_some]
    obtain ⟨hnotMem, -⟩ | ⟨-, hstop⟩ := hstops
    · exact absurd (mem_append_right _ (hlast.resolve_left (not_not.mpr hfull))) hnotMem
    · exact if_pos hstop
  · rw [if_neg (fun heq => hfull (heq.trans decodeSrcLength_eq)), hrun, bind_eq_bind,
      bind_some]

theorem decodeChunk_more (hbuffers : DecodeBuffers src dst)
    (hpre : p.chars ++ taken <+: src) (hn : n = p.count + taken.length) (hfull : n = 2964)
    (hnoPad : pad ∉ taken) :
    ∃ src' dst', decodeChunk src dst written n =
        some (.more src' dst' (Decoded.feed ⟨p, written⟩ taken).out
          (Decoded.feed ⟨p, written⟩ taken).pending.count) ∧
      DecodeBuffers src' dst' ∧ (Decoded.feed ⟨p, written⟩ taken).pending.chars <+: src' := by
  obtain ⟨d, hrun, hdst, hholds, hstops⟩ := base64DecodeLoop_chunk hbuffers hpre hn
  have hwritten : Decoded.feed ⟨p, written⟩ taken = (Decoded.feed ⟨p, []⟩ taken).after written := by
    rw [← beforePad_eq hnoPad, feed_written]
  rw [hwritten]
  rw [beforePad_eq hnoPad] at hholds
  generalize Decoded.feed ⟨p, []⟩ taken = s at hholds
  have hstop : ¬ (d.srcOffset < n ∧ src[d.srcOffset]? = some 0x3D) := by
    obtain ⟨-, hend⟩ | ⟨hmem, -⟩ := hstops
    · omega
    · exact absurd ((mem_append.mp hmem).resolve_left p.pad_notMem_chars) hnoPad
  have hwrite : writeBytevector written d.dst d.dstLen = some (s.after written).out :=
    writeBytevector_eq hholds.out hholds.dstLen
  unfold decodeChunk
  rw [if_pos (hfull.trans decodeSrcLength_eq.symm)]
  rw [decodeSrcLength_eq, ← hfull, hrun, bind_eq_bind, bind_some, if_neg hstop, hwrite]
  by_cases hnone : s.pending.count = 0
  · have hpending : s.pending = .none := Pending.eq_none_of_count hnone
    refine ⟨src, d.dst, ?_, ⟨hbuffers.length_src, hdst⟩, ?_⟩
    · rw [if_pos (by rw [hholds.b1, hpending]; rfl), bind_eq_bind, bind_some]
      show some (RoundResult.more src d.dst (s.after written).out 0) =
        some (RoundResult.more src d.dst (s.after written).out s.pending.count)
      rw [hnone]
    · show s.pending.chars <+: src
      rw [hpending]
      exact nil_prefix
  · obtain ⟨src', hcarry, hlength, hchars⟩ := @carryOver_spec src _ _ hholds hnone
      (by rw [hbuffers.length_src, decodeSrcLength_eq]; omega)
    refine ⟨src', d.dst, ?_, ⟨hlength.trans hbuffers.length_src, hdst⟩, hchars⟩
    have hb1 : d.b1 ≠ outsideChar := fun heq =>
      hnone (Pending.count_eq_zero_of_b1 (hholds.b1.symm.trans heq))
    rw [if_neg hb1, bind_eq_bind, bind_some, hcarry]
    rfl

end Chunk

/-! ## The boundaries of the chunks -/

/-- How many bytes of the input the first chunks take, if there is no padding: the characters that are
carried over take the place of as many bytes. -/
def boundary (input : List UInt8) : ℕ → ℕ
  | 0 => 0
  | k + 1 => boundary input k +
      (2964 - (input.take (boundary input k)).countP (fun u => (sextet? u).isSome) % 4)

theorem boundary_lt_succ (k : ℕ) : boundary input k < boundary input (k + 1) := by
  have hmod := Nat.mod_lt ((input.take (boundary input k)).countP fun u => (sextet? u).isSome)
    (show 0 < 4 by omega)
  rw [boundary]
  omega

theorem boundary_strictMono : StrictMono (boundary input) :=
  strictMono_nat_of_lt_succ boundary_lt_succ

/-- The input has no padding and ends where a read of the decoder ends. -/
def EndsAtBoundary (input : List UInt8) : Prop :=
  pad ∉ input ∧ ∃ k, boundary input k = input.length

/-! ## The rounds -/

/-- What has been decoded before a round. -/
def decodedAt (input : List UInt8) (k : ℕ) : Decoded :=
  Decoded.start.feed (input.take (boundary input k))

/-- The state of the loop before a round. -/
structure AtBoundary (input : List UInt8) (k : ℕ) (src dst : List UInt8) : Prop where
  le_length : boundary input k ≤ input.length
  noPad : pad ∉ input.take (boundary input k)
  buffers : DecodeBuffers src dst
  chars : (decodedAt input k).pending.chars <+: src

theorem boundary_succ_eq (k : ℕ) :
    boundary input (k + 1) =
      boundary input k + (2964 - (decodedAt input k).pending.count) := by
  unfold decodedAt
  rw [boundary, Decoded.count_feed]
  show _ = boundary input k + (2964 - (0 + _) % 4)
  rw [Nat.zero_add]

section Round

variable {k : ℕ} {taken : List UInt8}

theorem beforePad_append_of_mem {bytes bytes' : List UInt8} (hmem : pad ∈ bytes) :
    beforePad (bytes ++ bytes') = beforePad bytes := by
  induction bytes with
  | nil => exact absurd hmem not_mem_nil
  | cons u rest ih =>
    by_cases hu : u = pad
    · rw [hu, cons_append, beforePad_pad, beforePad_pad]
    · rw [cons_append, beforePad_cons_of_ne hu, beforePad_cons_of_ne hu,
        ih ((mem_cons.mp hmem).resolve_left (Ne.symm hu))]

theorem not_endsAtBoundary (hrest : boundary input k < input.length)
    (htaken : (input.drop (boundary input k)).take (2964 - (decodedAt input k).pending.count) = taken)
    (hlast : (decodedAt input k).pending.count + taken.length ≠ 2964 ∨ pad ∈ taken) :
    ¬ EndsAtBoundary input := by
  rintro ⟨hnoPad, k', hend⟩
  have hnotMem : pad ∉ taken := by
    rw [← htaken]
    exact fun hmem => hnoPad (mem_of_mem_drop (mem_of_mem_take hmem))
  have hshort := hlast.resolve_right hnotMem
  have hcount := (decodedAt input k).pending.count_lt
  rw [← htaken, length_take, length_drop] at hshort
  have hlt : input.length < boundary input (k + 1) := by
    rw [boundary_succ_eq]
    omega
  -- the end lies between two boundaries
  rw [← hend] at hrest hlt
  have hmore := boundary_strictMono.lt_iff_lt.mp hrest
  have hless := boundary_strictMono.lt_iff_lt.mp hlt
  omega

theorem decode_eq_of_last (hat : AtBoundary input k src dst)
    (htaken : (input.drop (boundary input k)).take (2964 - (decodedAt input k).pending.count) = taken)
    (hlast : (decodedAt input k).pending.count + taken.length ≠ 2964 ∨ pad ∈ taken) :
    decode input = ((decodedAt input k).feed (beforePad taken)).finish := by
  have hbefore : beforePad (input.drop (boundary input k)) = beforePad taken := by
    by_cases hmem : pad ∈ taken
    · rw [← take_append_drop (2964 - (decodedAt input k).pending.count)
        (input.drop (boundary input k)), htaken, beforePad_append_of_mem hmem]
    · have hshort := hlast.resolve_right hmem
      have hcount := (decodedAt input k).pending.count_lt
      rw [← htaken, length_take] at hshort
      rw [← htaken, take_of_length_le (by omega)]
  unfold decode decodedAt
  rw [← Decoded.feed_append, ← hbefore, ← beforePad_append hat.noPad, take_append_drop]

theorem atBoundary_succ {src' dst' : List UInt8} (hat : AtBoundary input k src dst)
    (htaken : (input.drop (boundary input k)).take (2964 - (decodedAt input k).pending.count) = taken)
    (hfull : (decodedAt input k).pending.count + taken.length = 2964) (hnoPad : pad ∉ taken)
    (hbuffers : DecodeBuffers src' dst')
    (hchars : ((decodedAt input k).feed taken).pending.chars <+: src') :
    AtBoundary input (k + 1) src' dst' ∧
      decodedAt input (k + 1) = (decodedAt input k).feed taken ∧
      (input.drop (boundary input k)).drop (2964 - (decodedAt input k).pending.count) =
        input.drop (boundary input (k + 1)) := by
  have hcount := (decodedAt input k).pending.count_lt
  have hroom : boundary input (k + 1) ≤ input.length := by
    rw [← htaken, length_take, length_drop] at hfull
    rw [boundary_succ_eq]
    omega
  have htake : input.take (boundary input (k + 1)) = input.take (boundary input k) ++ taken := by
    rw [boundary_succ_eq, take_add, htaken]
  have hnext : decodedAt input (k + 1) = (decodedAt input k).feed taken := by
    unfold decodedAt
    rw [htake, Decoded.feed_append]
  refine ⟨⟨hroom, ?_, hbuffers, hnext ▸ hchars⟩, hnext, by rw [boundary_succ_eq, drop_drop]⟩
  rw [htake, mem_append, not_or]
  exact ⟨hat.noPad, hnoPad⟩

end Round

/-- From a boundary on, by induction on what is left of the input. -/
theorem base64DecodeRounds_spec {fuel k : ℕ} (hat : AtBoundary input k src dst)
    (hfuel : input.length - boundary input k < fuel) :
    (EndsAtBoundary input →
        (base64DecodeRounds fuel (decodedAt input k).pending.count src dst
          (input.drop (boundary input k)) (decodedAt input k).out).2 = .raised) ∧
      (¬ EndsAtBoundary input →
        base64DecodeRounds fuel (decodedAt input k).pending.count src dst
          (input.drop (boundary input k)) (decodedAt input k).out = (decode input, .returned)) := by
  induction fuel generalizing k src dst with
  | zero => exact absurd hfuel (Nat.not_lt_zero _)
  | succ fuel ih =>
    have hcount := (decodedAt input k).pending.count_lt
    have hchars := (decodedAt input k).pending.length_chars
    by_cases hrest : input.drop (boundary input k) = []
    · -- nothing is left: the chunks take the whole input
      have hend : boundary input k = input.length :=
        le_antisymm hat.le_length (drop_eq_nil_iff.mp hrest)
      have hnoPad := hat.noPad
      rw [hend, take_length] at hnoPad
      rw [hrest, base64DecodeRounds, readBytevector_nil (by rw [decodeSrcLength_eq]; omega)]
      exact ⟨fun _ => rfl, fun hnot => absurd ⟨hnoPad, k, hend⟩ hnot⟩
    · obtain ⟨src', hread, hlength, hsrc⟩ := @readBytevector_spec _ _ _ decodeSrcLength
        (by rw [hchars, decodeSrcLength_eq]; omega) hat.chars (le_of_eq hat.buffers.length_src.symm)
        hrest
      rw [hchars] at hread hsrc
      rw [decodeSrcLength_eq] at hread hsrc
      generalize htaken : (input.drop (boundary input k)).take
        (2964 - (decodedAt input k).pending.count) = taken at hread hsrc
      rw [base64DecodeRounds, decodeSrcLength_eq, hread]
      have hbuffers : DecodeBuffers src' dst :=
        ⟨hlength.trans hat.buffers.length_src, hat.buffers.length_dst⟩
      by_cases hlast : (decodedAt input k).pending.count + taken.length ≠ 2964 ∨ pad ∈ taken
      · have hround := @decodeChunk_done _ _ (decodedAt input k).out _ _ _ hbuffers hsrc rfl hlast
        simp only [hround]
        have hlt : boundary input k < input.length := by
          rw [drop_eq_nil_iff] at hrest
          omega
        refine ⟨fun hend => absurd hend (not_endsAtBoundary hlt htaken hlast), fun _ => ?_⟩
        rw [decode_eq_of_last hat htaken hlast]
      · push Not at hlast
        obtain ⟨src'', dst', hround, hbuffers', hchars'⟩ := @decodeChunk_more _ _
          (decodedAt input k).out _ _ _ hbuffers hsrc rfl hlast.1 hlast.2
        obtain ⟨hat', hnext, hdrop⟩ := atBoundary_succ hat htaken hlast.1 hlast.2 hbuffers' hchars'
        simp only [hround]
        rw [← hnext, hdrop]
        have hlt := @boundary_lt_succ input k
        exact ih hat' (by have := hat'.le_length; omega)

/-! ## The whole input -/

/-- The port version writes what the bytevector version returns. -/
def DecodeAgrees (input : List UInt8) : Prop :=
  ∃ bytes, base64DecodeBytevector input = some bytes ∧ base64Decode input = (bytes, .returned)

theorem decodeAgrees_iff (input : List UInt8) : DecodeAgrees input ↔ ¬ EndsAtBoundary input := by
  have hat : AtBoundary input 0 (List.replicate decodeSrcLength 0)
      (List.replicate decodeDstLength 0) :=
    ⟨Nat.zero_le _, not_mem_nil, ⟨length_replicate, length_replicate⟩,
      nil_prefix⟩
  obtain ⟨hraised, hreturned⟩ := @base64DecodeRounds_spec _ _ _ (input.length + 1) _ hat
    (Nat.lt_succ_of_le (Nat.sub_le _ _))
  change EndsAtBoundary input → (base64Decode input).2 = .raised at hraised
  change ¬ EndsAtBoundary input → base64Decode input = (decode input, .returned) at hreturned
  unfold DecodeAgrees
  rw [base64DecodeBytevector_eq]
  constructor
  · rintro ⟨bytes, -, hagrees⟩ hend
    have hraised' := hraised hend
    rw [hagrees] at hraised'
    exact Outcome.noConfusion hraised'
  · intro hend
    exact ⟨decode input, rfl, hreturned hend⟩

/-! ## Streaming -/

/-- Each port version agrees with its bytevector version under its own condition on the input: one
chunk that is neither empty nor full for the encoder, and padding or an end that is no boundary for the
decoder. -/
theorem streaming_agrees_iff (input : List UInt8) :
    (EncodeAgrees input ↔ 1 ≤ input.length ∧ input.length ≤ 2047) ∧
      (DecodeAgrees input ↔ 0x3D ∈ input ∨ ∀ k, boundary input k ≠ input.length) := by
  refine ⟨encodeAgrees_iff input, ?_⟩
  rw [decodeAgrees_iff]
  unfold EndsAtBoundary
  rw [not_and_or, not_not, not_exists]
  rfl

/-- A full chunk of 2048 bytes is padded before the last byte of 2049, and an input of 2964 characters
is taken for one that goes on. -/
theorem full_chunks_not_agree :
    ¬ EncodeAgrees (List.replicate 2049 0) ∧ ¬ DecodeAgrees (List.replicate 2964 65) := by
  constructor
  · rw [encodeAgrees_iff, length_replicate]
    omega
  · rw [decodeAgrees_iff, not_not]
    refine ⟨?_, 1, ?_⟩
    · rw [mem_replicate]
      exact fun hmem => absurd hmem.2 (by decide)
    · rw [boundary, boundary, take_zero, countP_nil, length_replicate]

end ChibiScheme.Base64
