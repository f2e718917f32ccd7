import ChibiScheme.Base64.Encode

/-!
# The encoder on a port

A port is read in chunks of 2048 bytes.  If the chunk is the only one and not full, the output is the
encoding of the input.  An input of 2048 bytes or more is padded in the middle or ends with an
end-of-file object that is taken for a count, and so does an empty one.
-/

namespace ChibiScheme.Base64

open List Option

variable {vec out input src dst written : List UInt8}

/-! ## Reading a chunk -/

theorem readLoop_spec {start n i : ℕ} (hpos : 0 < n) (hi : i ≤ n) (hpre : out <+: vec)
    (hout : out.length = i + start) (hroom : n + start ≤ vec.length) :
    ∃ vec', readLoop start n input i vec =
        some (if i = 0 ∧ input = [] then .eof else .count (i + (input.take (n - i)).length), vec',
          input.drop (n - i)) ∧
      vec'.length = vec.length ∧ out ++ input.take (n - i) <+: vec' := by
  induction input generalizing i out vec with
  | nil =>
    refine ⟨vec, ?_, rfl, by rwa [take_nil, append_nil]⟩
    rw [readLoop, take_nil, length_nil, drop_nil, Nat.add_zero]
    split
    · rw [if_neg (by omega)]
    · simp only [and_true]
  | cons x rest ih =>
    rw [readLoop]
    split
    · have hfull : n - i = 0 := by omega
      refine ⟨vec, ?_, rfl, by rwa [hfull, take_zero, append_nil]⟩
      rw [if_neg (by simp), hfull, take_zero, length_nil, drop_zero, Nat.add_zero]
    · rename_i hmore
      rw [u8Set_toNat x (by omega), bind_eq_bind, bind_some]
      have hnext := prefix_set x hpre hout.symm (by omega)
      obtain ⟨vec', hrun, hlength, hvec⟩ := ih (i := i + 1) (by omega) hnext
        (by rw [length_append, length_singleton]; omega)
        (by rw [length_set]; exact hroom)
      obtain ⟨k, hk⟩ : ∃ k, n - i = k + 1 := ⟨n - i - 1, by omega⟩
      have hk' : n - (i + 1) = k := by omega
      rw [hk'] at hrun hvec
      rw [hk]
      refine ⟨vec', ?_, by rw [hlength, length_set], ?_⟩
      · rw [hrun, if_neg (by omega), if_neg (by simp)]
        simp only [take_succ_cons, drop_succ_cons, length_cons, Option.some.injEq,
          Prod.mk.injEq, ReadCount.count.injEq, and_true]
        omega
      · rwa [take_succ_cons, append_cons]

theorem readBytevector_nil {start stop : ℕ} (hlt : start < stop) :
    readBytevector vec [] start stop = some (.eof, vec, []) := by
  unfold readBytevector
  rw [if_neg (by omega), readLoop, if_neg (by omega), if_pos rfl]

/-- A read fills the vector, or takes all that there is. -/
theorem readBytevector_spec {stop : ℕ} (hlt : out.length < stop) (hpre : out <+: vec)
    (hroom : stop ≤ vec.length) (hinput : input ≠ []) :
    ∃ vec', readBytevector vec input out.length stop =
        some (.count (input.take (stop - out.length)).length, vec',
          input.drop (stop - out.length)) ∧
      vec'.length = vec.length ∧ out ++ input.take (stop - out.length) <+: vec' := by
  obtain ⟨vec', hrun, hlength, hvec⟩ := @readLoop_spec vec out input out.length
    (stop - out.length) 0 (by omega) (by omega) hpre (Nat.zero_add _).symm (by omega)
  rw [Nat.sub_zero] at hrun hvec
  refine ⟨vec', ?_, hlength, hvec⟩
  unfold readBytevector
  rw [if_neg (by omega), hrun, if_neg (fun hnil => hinput hnil.2), Nat.zero_add]

/-! ## The rounds -/

/-- The two buffers of `base64-encode` have the lengths it gives them. -/
structure EncodeBuffers (src dst : List UInt8) : Prop where
  length_src : src.length = encodeSrcLength
  length_dst : dst.length = (encodeSrcLength / 3) <<< 2

/-- A chunk is written as its code. -/
theorem encodeChunk_spec {chunk : List UInt8} {n : ℕ} (hbuffers : EncodeBuffers src dst)
    (hpre : chunk <+: src) (hn : n = chunk.length) (hle : n ≤ 2048) :
    ∃ dst', encodeChunk src dst written n = some (dst', written ++ encode chunk) ∧
      EncodeBuffers src dst' := by
  have hpart : (src.take n).drop 0 = chunk := by
    rw [drop_zero, hn, ← prefix_iff_eq_take.mp hpre]
  have hroom : ([] : List UInt8).length + (encode chunk).length ≤ dst.length := by
    rw [hbuffers.length_dst, length_encode, length_nil, ← hn,
      show (encodeSrcLength / 3) <<< 2 = 4096 from rfl]
    omega
  obtain ⟨dst', hrun, hlength, hdst⟩ := base64EncodeLoop_spec hpart
    (by rw [hn, Nat.zero_add]) nil_prefix (j := 0) rfl hroom
  refine ⟨dst', ?_, hbuffers.length_src, hlength.trans hbuffers.length_dst⟩
  unfold encodeChunk
  rw [hrun, bind_eq_bind, bind_some,
    writeBytevector_eq hdst (by rw [nil_append, length_encode, hn]), bind_some,
    nil_append]

theorem base64EncodeRounds_nil (fuel : ℕ) :
    base64EncodeRounds (fuel + 1) src dst [] written = (written, .raised) := by
  rw [base64EncodeRounds, readBytevector_nil (by omega)]

theorem base64EncodeRounds_cons (fuel : ℕ) (hbuffers : EncodeBuffers src dst)
    (hinput : input ≠ []) :
    ∃ src' dst', EncodeBuffers src' dst' ∧
      base64EncodeRounds (fuel + 1) src dst input written =
        if 2048 ≤ input.length then
          base64EncodeRounds fuel src' dst' (input.drop 2048)
            (written ++ encode (input.take 2048))
        else (written ++ encode input, .returned) := by
  obtain ⟨src', hread, hlength, hsrc⟩ := @readBytevector_spec src [] input 2048
    (by simp) nil_prefix (by rw [hbuffers.length_src]; decide) hinput
  simp only [length_nil, Nat.sub_zero, nil_append] at hread hsrc
  have hbuffers' : EncodeBuffers src' dst :=
    ⟨hlength.trans hbuffers.length_src, hbuffers.length_dst⟩
  obtain ⟨dst', hchunk, hbuffers''⟩ := @encodeChunk_spec _ _ written _ _ hbuffers' hsrc rfl
    (by rw [length_take]; omega)
  refine ⟨src', dst', hbuffers'', ?_⟩
  rw [base64EncodeRounds, hread]
  simp only [hchunk]
  by_cases hfull : 2048 ≤ input.length
  · rw [if_pos hfull, if_pos (by rw [length_take]; omega)]
  · rw [if_neg hfull, if_neg (by rw [length_take]; omega),
      take_of_length_le (by omega)]

theorem prefix_base64EncodeRounds (fuel : ℕ) (hbuffers : EncodeBuffers src dst) :
    written <+: (base64EncodeRounds fuel src dst input written).1 := by
  induction fuel generalizing src dst input written with
  | zero => exact prefix_refl written
  | succ fuel ih =>
    by_cases hinput : input = []
    · have hsame : (base64EncodeRounds (fuel + 1) src dst input written).1 = written := by
        rw [hinput, base64EncodeRounds_nil]
      simpa only [hsame] using prefix_refl written
    · obtain ⟨src', dst', hbuffers', hround⟩ :=
        @base64EncodeRounds_cons _ _ _ written fuel hbuffers hinput
      rw [hround]
      split
      · exact (prefix_append _ _).trans (ih hbuffers')
      · exact prefix_append _ _

/-! ## The padding in the middle -/

theorem encode_append {l l' : List UInt8} (hdvd : l.length % 3 = 0) :
    encode (l ++ l') = encode l ++ encode l' := by
  induction l using encode.induct with
  | case1 => rw [nil_append, encode, nil_append]
  | case2 b₁ => simp at hdvd
  | case3 b₁ b₂ => simp at hdvd
  | case4 b₁ b₂ b₃ rest ih =>
    have hrest : rest.length % 3 = 0 := by
      simp only [length_cons] at hdvd
      omega
    simp only [cons_append]
    rw [encode, encode, ih hrest, append_assoc]

theorem not_prefix_encode (b₁ b₂ b₃ : UInt8) (rest : List UInt8) :
    ¬ encode [b₁, b₂] <+: encode (b₁ :: b₂ :: b₃ :: rest) := by
  intro hpre
  simp only [encode, cons_append, cons_prefix_cons] at hpre
  exact encChar_ne_pad (sextet₄_lt b₃) hpre.2.2.2.1.symm

theorem not_prefix_encode_take (hlong : 2048 < input.length) :
    ¬ encode (input.take 2048) <+: encode input := by
  have hlength : (input.take 2046).length % 3 = 0 := by
    rw [length_take, Nat.min_eq_left (by omega)]
  obtain ⟨b₁, b₂, b₃, rest, hrest⟩ : ∃ b₁ b₂ b₃ rest, input.drop 2046 = b₁ :: b₂ :: b₃ :: rest := by
    rw [drop_eq_getElem_cons (by omega), drop_eq_getElem_cons (by omega),
      drop_eq_getElem_cons (by omega)]
    exact ⟨_, _, _, _, rfl⟩
  have htake : input.take 2048 = input.take 2046 ++ [b₁, b₂] := by
    rw [show 2048 = 2046 + 2 from rfl, take_add, hrest]
    rfl
  have hwhole : input = input.take 2046 ++ b₁ :: b₂ :: b₃ :: rest := by
    rw [← hrest, take_append_drop]
  have hencode : encode input =
      encode (input.take 2046) ++ encode (b₁ :: b₂ :: b₃ :: rest) := by
    rw [← encode_append hlength, ← hwhole]
  intro hpre
  rw [htake, encode_append hlength, hencode, prefix_append_right_inj] at hpre
  exact not_prefix_encode b₁ b₂ b₃ rest hpre

/-! ## The whole input -/

/-- The port version writes what the bytevector version returns. -/
def EncodeAgrees (input : List UInt8) : Prop :=
  ∃ bytes, base64EncodeBytevector input = some bytes ∧ base64Encode input = (bytes, .returned)

theorem encodeAgrees_iff (input : List UInt8) :
    EncodeAgrees input ↔ 1 ≤ input.length ∧ input.length ≤ 2047 := by
  have hbuffers : EncodeBuffers (List.replicate encodeSrcLength 0)
      (List.replicate ((encodeSrcLength / 3) <<< 2) 0) :=
    ⟨length_replicate, length_replicate⟩
  have hiff : EncodeAgrees input ↔ base64Encode input = (encode input, .returned) := by
    unfold EncodeAgrees
    rw [base64EncodeBytevector_eq]
    simp only [Option.some.injEq, exists_eq_left']
  rw [hiff]
  unfold base64Encode
  by_cases hinput : input = []
  · subst hinput
    rw [base64EncodeRounds_nil]
    simp
  · have hpos : 1 ≤ input.length := length_pos_iff.mpr hinput
    obtain ⟨src, dst, hnext, hround⟩ :=
      @base64EncodeRounds_cons _ _ _ [] input.length hbuffers hinput
    rw [hround, nil_append, nil_append]
    by_cases hfull : 2048 ≤ input.length
    · rw [if_pos hfull]
      refine ⟨fun hagrees => ?_, fun hle => absurd hle.2 (by omega)⟩
      exfalso
      by_cases hexact : input.length = 2048
      · -- the next round reads an end-of-file object
        rw [drop_eq_nil_of_le (by omega), show input.length = 2047 + 1 from hexact,
          base64EncodeRounds_nil] at hagrees
        exact Outcome.noConfusion (congrArg Prod.snd hagrees)
      · -- the padding of the first chunk is in the output
        have hpre := @prefix_base64EncodeRounds (input.drop 2048) _ _
          (encode (input.take 2048)) input.length hnext
        rw [hagrees] at hpre
        exact not_prefix_encode_take (by omega) hpre
    · rw [if_neg hfull]
      exact ⟨fun _ => ⟨hpos, by omega⟩, fun _ => rfl⟩

end ChibiScheme.Base64
