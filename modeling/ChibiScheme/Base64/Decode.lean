import Mathlib.Data.List.TakeWhile
import ChibiScheme.Base64.Encode

/-!
# Decoding

The decoder collects the characters of a group in three variables.  Four of them make three bytes; a
group that is not complete is written when the source ends or is padded.  The last section has the
round trip.
-/

namespace ChibiScheme.Base64

open List

variable {src out dst : List UInt8}

/-! ## Characters -/

theorem base64DecodeTable_kind : ∀ n < 256,
    (base64DecodeTable.getD n outsideChar = padChar ∧ n = 61) ∨
      (n ≠ 61 ∧ (base64DecodeTable.getD n outsideChar = outsideChar ∨
        base64DecodeTable.getD n outsideChar < 64)) := by
  decide +kernel

theorem base64DecodeU8_pad : base64DecodeU8 pad = padChar := by
  decide

/-- The number of a digit of the alphabet. -/
def sextet? (u : UInt8) : Option (Fin 64) :=
  if hlt : base64DecodeU8 u < 64 then some ⟨base64DecodeU8 u, hlt⟩ else none

theorem base64DecodeU8_of_sextet?_none {u : UInt8} (hnone : sextet? u = none) (hu : u ≠ pad) :
    base64DecodeU8 u = outsideChar := by
  unfold sextet? at hnone
  split at hnone
  · exact absurd hnone (Option.some_ne_none _)
  · rename_i hge
    obtain ⟨-, hu'⟩ | ⟨-, hkind⟩ := base64DecodeTable_kind u.toNat u.toNat_lt
    · exact absurd (UInt8.toNat_inj.mp hu') hu
    · exact hkind.resolve_right hge

theorem base64DecodeU8_of_sextet?_some {u : UInt8} {c : Fin 64} (hsome : sextet? u = some c) :
    base64DecodeU8 u = c := by
  unfold sextet? at hsome
  split at hsome
  · exact congrArg Fin.val (Option.some.inj hsome)
  · exact absurd hsome.symm (Option.some_ne_none c)

theorem sextet?_encChar : ∀ c : Fin 64, sextet? (encChar c) = some c := by
  decide +kernel

theorem sextet_ne (c : Fin 64) : c.val ≠ outsideChar ∧ c.val ≠ padChar := by
  revert c
  decide

/-! ## The state of the decoder -/

/-- The characters of a group that is not complete. -/
inductive Pending where
  | none
  | one (b₁ : Fin 64)
  | two (b₁ b₂ : Fin 64)
  | three (b₁ b₂ b₃ : Fin 64)

namespace Pending

/-- The value of the first variable. -/
def b1 : Pending → ℕ
  | none => outsideChar
  | one b₁ => b₁
  | two b₁ _ => b₁
  | three b₁ _ _ => b₁

/-- The value of the second variable. -/
def b2 : Pending → ℕ
  | none => outsideChar
  | one _ => outsideChar
  | two _ b₂ => b₂
  | three _ b₂ _ => b₂

/-- The value of the third variable. -/
def b3 : Pending → ℕ
  | none => outsideChar
  | one _ => outsideChar
  | two _ _ => outsideChar
  | three _ _ b₃ => b₃

/-- How many digits are pending. -/
def count : Pending → ℕ
  | none => 0
  | one _ => 1
  | two _ _ => 2
  | three _ _ _ => 3

/-- The characters themselves. -/
def chars : Pending → List UInt8
  | none => []
  | one b₁ => [encChar b₁]
  | two b₁ b₂ => [encChar b₁, encChar b₂]
  | three b₁ b₂ b₃ => [encChar b₁, encChar b₂, encChar b₃]

theorem length_chars (p : Pending) : p.chars.length = p.count := by
  cases p <;> rfl

theorem count_lt (p : Pending) : p.count < 4 := by
  cases p <;> simp only [count] <;> omega

theorem eq_none_of_count {p : Pending} (hcount : p.count = 0) : p = none := by
  cases p with
  | none => rfl
  | one b₁ => exact absurd hcount Nat.one_ne_zero
  | two b₁ b₂ => exact absurd hcount (Nat.succ_ne_zero 1)
  | three b₁ b₂ b₃ => exact absurd hcount (Nat.succ_ne_zero 2)

theorem count_eq_zero_of_b1 {p : Pending} (houtside : p.b1 = outsideChar) : p.count = 0 := by
  cases p with
  | none => rfl
  | one b₁ => exact absurd houtside (sextet_ne b₁).1
  | two b₁ b₂ => exact absurd houtside (sextet_ne b₁).1
  | three b₁ b₂ b₃ => exact absurd houtside (sextet_ne b₁).1

theorem pad_notMem_chars (p : Pending) : pad ∉ p.chars := by
  have hne : ∀ c : Fin 64, pad ≠ encChar c := fun c heq => encChar_ne_pad c.isLt heq.symm
  cases p with
  | none => exact not_mem_nil
  | one b₁ => simp only [chars, mem_cons, not_mem_nil, hne, or_self, not_false_eq_true]
  | two b₁ b₂ => simp only [chars, mem_cons, not_mem_nil, hne, or_self, not_false_eq_true]
  | three b₁ b₂ b₃ =>
    simp only [chars, mem_cons, not_mem_nil, hne, or_self, not_false_eq_true]

end Pending

/-- What has been decoded: the characters that wait and the bytes. -/
structure Decoded where
  pending : Pending
  out : List UInt8

section Bytes

variable (b₁ b₂ b₃ c : Fin 64)

/-- The byte of the first two digits. -/
def byte₁ : ℕ := (b₁.val <<< 2) ||| bitField b₂ 4 6

/-- The byte of the second and third digit. -/
def byte₂ : ℕ := (bitField b₂ 0 4 <<< 4) ||| bitField b₃ 2 6

/-- The byte of the last two digits. -/
def byte₃ : ℕ := (bitField b₃ 0 2 <<< 6) ||| c.val

theorem shift_lt : b₁.val <<< 2 < 256 := by
  rw [Nat.shiftLeft_eq]
  omega

theorem byte₁_lt : byte₁ b₁ b₂ < 256 := by
  have hfield : bitField b₂ 4 6 < 2 ^ 2 := bitField_lt rfl
  exact Nat.or_lt_two_pow (n := 8) (shift_lt b₁) (by omega)

theorem byte₂_lt : byte₂ b₂ b₃ < 256 := by
  have hlow : bitField b₂ 0 4 < 2 ^ 4 := bitField_lt rfl
  have hfield : bitField b₃ 2 6 < 2 ^ 4 := bitField_lt rfl
  apply Nat.or_lt_two_pow (n := 8)
  · rw [Nat.shiftLeft_eq]
    omega
  · omega

theorem byte₃_lt : byte₃ b₃ c < 256 := by
  have hlow : bitField b₃ 0 2 < 2 ^ 2 := bitField_lt rfl
  apply Nat.or_lt_two_pow (n := 8)
  · rw [Nat.shiftLeft_eq]
    omega
  · omega

end Bytes

namespace Decoded

/-- Nothing decoded. -/
def start : Decoded where
  pending := .none
  out := []

/-- The next character of the alphabet. -/
def push (s : Decoded) (c : Fin 64) : Decoded :=
  match s.pending with
  | .none => { s with pending := .one c }
  | .one b₁ => { s with pending := .two b₁ c }
  | .two b₁ b₂ => { s with pending := .three b₁ b₂ c }
  | .three b₁ b₂ b₃ =>
    { pending := .none
      out := s.out ++ [UInt8.ofNat (byte₁ b₁ b₂), UInt8.ofNat (byte₂ b₂ b₃),
        UInt8.ofNat (byte₃ b₃ c)] }

/-- The next byte of the source; one that is not in the alphabet is skipped. -/
def next (s : Decoded) (u : UInt8) : Decoded :=
  match sextet? u with
  | none => s
  | some c => s.push c

/-- The state after some characters. -/
def feed (s : Decoded) (bytes : List UInt8) : Decoded :=
  bytes.foldl next s

/-- The group that is not complete is written. -/
def finish (s : Decoded) : List UInt8 :=
  match s.pending with
  | .none => s.out
  | .one b₁ => s.out ++ [UInt8.ofNat (b₁.val <<< 2)]
  | .two b₁ b₂ => s.out ++ [UInt8.ofNat (byte₁ b₁ b₂)]
  | .three b₁ b₂ b₃ => s.out ++ [UInt8.ofNat (byte₁ b₁ b₂), UInt8.ofNat (byte₂ b₂ b₃)]

variable {s : Decoded}

theorem feed_append (bytes bytes' : List UInt8) :
    s.feed (bytes ++ bytes') = (s.feed bytes).feed bytes' :=
  foldl_append

/-- What was decoded before stays in front. -/
def after (s : Decoded) (out : List UInt8) : Decoded :=
  { s with out := out ++ s.out }

theorem next_after (u : UInt8) : (s.after out).next u = (s.next u).after out := by
  unfold next
  cases sextet? u with
  | none => rfl
  | some c =>
    obtain ⟨pending, bytes⟩ := s
    cases pending with
    | none => rfl
    | one b₁ => rfl
    | two b₁ b₂ => rfl
    | three b₁ b₂ b₃ => simp only [push, after, append_assoc]

theorem feed_after (bytes : List UInt8) : (s.after out).feed bytes = (s.feed bytes).after out := by
  induction bytes generalizing s with
  | nil => rfl
  | cons u rest ih =>
    show ((s.after out).next u).feed rest = ((s.next u).feed rest).after out
    rw [next_after, ih]

theorem finish_after : (s.after out).finish = out ++ s.finish := by
  obtain ⟨pending, bytes⟩ := s
  cases pending with
  | none => rfl
  | one b₁ => exact append_assoc _ _ _
  | two b₁ b₂ => exact append_assoc _ _ _
  | three b₁ b₂ b₃ => exact append_assoc _ _ _

theorem next_of_none {u : UInt8} (hnone : sextet? u = none) : s.next u = s := by
  unfold next
  rw [hnone]

theorem next_of_some {u : UInt8} {c : Fin 64} (hsome : sextet? u = some c) :
    s.next u = s.push c := by
  unfold next
  rw [hsome]

theorem next_encChar (c : Fin 64) : s.next (encChar c) = s.push c :=
  next_of_some (sextet?_encChar c)

theorem feed_chars (p : Pending) : start.feed p.chars = { pending := p, out := [] } := by
  cases p with
  | none => rfl
  | one b₁ => simp only [feed, Pending.chars, foldl_cons, foldl_nil, next_encChar]; rfl
  | two b₁ b₂ => simp only [feed, Pending.chars, foldl_cons, foldl_nil, next_encChar]; rfl
  | three b₁ b₂ b₃ => simp only [feed, Pending.chars, foldl_cons, foldl_nil, next_encChar]; rfl

theorem count_next (u : UInt8) :
    (s.next u).pending.count = (s.pending.count + if (sextet? u).isSome then 1 else 0) % 4 := by
  unfold next
  cases sextet? u with
  | none => exact (Nat.mod_eq_of_lt s.pending.count_lt).symm
  | some c =>
    obtain ⟨pending, bytes⟩ := s
    cases pending with
    | none => rfl
    | one b₁ => rfl
    | two b₁ b₂ => rfl
    | three b₁ b₂ b₃ => exact (Nat.mod_self 4).symm

theorem count_feed (bytes : List UInt8) :
    (s.feed bytes).pending.count =
      (s.pending.count + bytes.countP fun u => (sextet? u).isSome) % 4 := by
  induction bytes generalizing s with
  | nil => exact (Nat.mod_eq_of_lt s.pending.count_lt).symm
  | cons u rest ih =>
    show ((s.next u).feed rest).pending.count = _
    rw [ih, count_next, countP_cons, Nat.mod_add_mod]
    congr 1
    omega

end Decoded

/-! ## The loop -/

/-- What the decoder has in its variables and in the destination. -/
structure Holds (s : Decoded) (d : DecodeState) : Prop where
  dstLen : d.dstLen = s.out.length
  out : s.out <+: d.dst
  b1 : d.b1 = s.pending.b1
  b2 : d.b2 = s.pending.b2
  b3 : d.b3 = s.pending.b3
  room : s.out.length + 3 * ((3 + s.pending.count) / 4) ≤ d.dst.length

/-- Where the decoder stops: behind its part of the source or at the padding. -/
def StopsAt (src rest : List UInt8) (stop srcOffset : ℕ) : Prop :=
  (pad ∉ rest ∧ srcOffset = stop) ∨
    (pad ∈ rest ∧ srcOffset < stop ∧ src[srcOffset]? = some pad)

/-- The characters in front of the first `=`. -/
def beforePad (bytes : List UInt8) : List UInt8 :=
  bytes.takeWhile (· != pad)

theorem beforePad_cons_of_ne {u : UInt8} (hu : u ≠ pad) (rest : List UInt8) :
    beforePad (u :: rest) = u :: beforePad rest := by
  unfold beforePad
  rw [takeWhile_cons, if_pos (bne_iff_ne.mpr hu)]

theorem beforePad_pad (rest : List UInt8) : beforePad (pad :: rest) = [] := by
  unfold beforePad
  rw [takeWhile_cons, if_neg (by simp only [bne_self_eq_false, Bool.false_eq_true,
    not_false_eq_true])]

theorem beforePad_eq {bytes : List UInt8} (hnotMem : pad ∉ bytes) : beforePad bytes = bytes := by
  unfold beforePad
  rw [takeWhile_eq_self_iff]
  intro u hmem
  rw [bne_iff_ne]
  rintro rfl
  exact hnotMem hmem

section Steps

variable {stop i j b1 b2 b3 : ℕ} {u : UInt8}

theorem base64DecodeLoop_stop : base64DecodeLoop src stop stop j b1 b2 b3 dst =
    some ⟨stop, j, b1, b2, b3, dst⟩ := by
  rw [base64DecodeLoop, if_pos (le_refl _)]

theorem base64DecodeLoop_pad (hlt : i < stop) (hget : src[i]? = some pad) :
    base64DecodeLoop src stop i j b1 b2 b3 dst = some ⟨i, j, b1, b2, b3, dst⟩ := by
  rw [base64DecodeLoop, if_neg (by omega), hget]
  simp only [base64DecodeU8_pad, if_true]

theorem base64DecodeLoop_skip (hlt : i < stop) (hget : src[i]? = some u)
    (houtside : base64DecodeU8 u = outsideChar) :
    base64DecodeLoop src stop i j b1 b2 b3 dst =
      base64DecodeLoop src stop (i + 1) j b1 b2 b3 dst := by
  rw [base64DecodeLoop, if_neg (by omega), hget]
  simp only [houtside]
  rw [if_neg (by decide), if_pos trivial]

theorem base64DecodeLoop_push {s : Decoded} {c : Fin 64} (hlt : i < stop) (hget : src[i]? = some u)
    (hc : base64DecodeU8 u = c) (hout : s.out <+: dst)
    (hroom : s.pending.count = 3 → s.out.length + 3 ≤ dst.length) :
    ∃ dst', base64DecodeLoop src stop i s.out.length s.pending.b1 s.pending.b2 s.pending.b3 dst =
        base64DecodeLoop src stop (i + 1) (s.push c).out.length (s.push c).pending.b1
          (s.push c).pending.b2 (s.push c).pending.b3 dst' ∧
      dst'.length = dst.length ∧ (s.push c).out <+: dst' := by
  rw [base64DecodeLoop, if_neg (by omega), hget]
  simp only [hc]
  rw [if_neg (sextet_ne c).2, if_neg (sextet_ne c).1]
  obtain ⟨pending, out⟩ := s
  cases pending with
  | none => exact ⟨dst, if_pos rfl, rfl, hout⟩
  | one b₁ =>
    refine ⟨dst, ?_, rfl, hout⟩
    simp only [Pending.b1, Pending.b2]
    rw [if_neg (sextet_ne b₁).1, if_pos trivial]
    rfl
  | two b₁ b₂ =>
    refine ⟨dst, ?_, rfl, hout⟩
    simp only [Pending.b1, Pending.b2, Pending.b3]
    rw [if_neg (sextet_ne b₁).1, if_neg (sextet_ne b₂).1, if_pos trivial]
    rfl
  | three b₁ b₂ b₃ =>
    have hlength : out.length + 3 ≤ dst.length := hroom rfl
    have h₁ := @prefix_set out _ _ (UInt8.ofNat (byte₁ b₁ b₂)) hout rfl (by omega)
    have h₂ := prefix_set (j := out.length + 1) (UInt8.ofNat (byte₂ b₂ b₃)) h₁
      (by simp only [length_append, length_singleton]) (by rw [length_set]; omega)
    have h₃ := prefix_set (j := out.length + 2) (UInt8.ofNat (byte₃ b₃ c)) h₂
      (by rw [length_append, length_append]; rfl)
      (by rw [length_set, length_set]; omega)
    rw [append_assoc, append_assoc] at h₃
    refine ⟨_, ?_, by simp only [length_set], h₃⟩
    simp only [Pending.b1, Pending.b2, Pending.b3, Decoded.push, (sextet_ne b₁).1,
      (sextet_ne b₂).1, (sextet_ne b₃).1, if_false]
    rw [show (b₁.val <<< 2) ||| bitField b₂ 4 6 = byte₁ b₁ b₂ from rfl,
      show (bitField b₂ 0 4 <<< 4) ||| bitField b₃ 2 6 = byte₂ b₂ b₃ from rfl,
      show (bitField b₃ 0 2 <<< 6) ||| c.val = byte₃ b₃ c from rfl]
    rw [u8Set_eq (by omega) (byte₁_lt b₁ b₂), Option.bind_eq_bind, Option.bind_some,
      u8Set_eq (by rw [length_set]; omega) (byte₂_lt b₂ b₃), Option.bind_some,
      u8Set_eq (by simp only [length_set]; omega) (byte₃_lt b₃ c), Option.bind_some]
    simp only [length_append, length_cons, length_nil]

end Steps

/-- The loop is the walk over the characters, with its output in front of `dst`. -/
theorem base64DecodeLoop_spec {rest : List UInt8} {stop i : ℕ} {s : Decoded}
    (hpart : (src.take stop).drop i = rest) (hi : i + rest.length = stop)
    (hout : s.out <+: dst)
    (hroom : s.out.length + 3 * ((3 + s.pending.count + rest.length) / 4) ≤ dst.length) :
    ∃ d, base64DecodeLoop src stop i s.out.length s.pending.b1 s.pending.b2 s.pending.b3 dst =
        some d ∧ d.dst.length = dst.length ∧ Holds (s.feed (beforePad rest)) d ∧
      StopsAt src rest stop d.srcOffset := by
  induction rest generalizing i s dst with
  | nil =>
    obtain rfl : i = stop := hi
    exact ⟨_, base64DecodeLoop_stop, rfl, ⟨rfl, hout, rfl, rfl, rfl, hroom⟩,
      .inl ⟨not_mem_nil, rfl⟩⟩
  | cons u rest ih =>
    obtain ⟨hget, hpart', hstop⟩ := peel hpart
    simp only [length_cons] at hi hroom
    by_cases hu : u = pad
    · subst hu
      refine ⟨_, base64DecodeLoop_pad hstop hget, rfl, ?_,
        .inr ⟨mem_cons_self, hstop, hget⟩⟩
      rw [beforePad_pad]
      have hless : s.out.length + 3 * ((3 + s.pending.count) / 4) ≤ dst.length := by omega
      exact ⟨rfl, hout, rfl, rfl, rfl, hless⟩
    · have hstops : ∀ {k}, StopsAt src rest stop k → StopsAt src (u :: rest) stop k := by
        intro k hk
        unfold StopsAt at hk ⊢
        simpa only [mem_cons, Ne.symm hu, false_or] using hk
      rw [beforePad_cons_of_ne hu]
      cases hsextet : sextet? u with
      | none =>
        -- the character is skipped
        have hnext : s.next u = s := Decoded.next_of_none hsextet
        obtain ⟨d, hrun, hlength, hholds, hd⟩ := ih hpart' (by omega) hout
          (le_trans (by omega) hroom)
        refine ⟨d, ?_, hlength, ?_, hstops hd⟩
        · rw [base64DecodeLoop_skip hstop hget (base64DecodeU8_of_sextet?_none hsextet hu), hrun]
        · show Holds ((s.next u).feed (beforePad rest)) d
          rwa [hnext]
      | some c =>
        have hnext : s.next u = s.push c := Decoded.next_of_some hsextet
        obtain ⟨dst', hstep, hlength', hout'⟩ := base64DecodeLoop_push hstop hget
          (base64DecodeU8_of_sextet?_some hsextet) hout (fun hthree => by omega)
        have hroom' : (s.push c).out.length +
            3 * ((3 + (s.push c).pending.count + rest.length) / 4) ≤ dst'.length := by
          rw [hlength']
          refine le_trans ?_ hroom
          obtain ⟨pending, out⟩ := s
          cases pending <;> simp only [Decoded.push, Pending.count, length_append,
            length_cons, length_nil] <;> omega
        obtain ⟨d, hrun, hlength, hholds, hd⟩ := ih hpart' (by omega) hout' hroom'
        refine ⟨d, hstep.trans hrun, hlength.trans hlength', ?_, hstops hd⟩
        show Holds ((s.next u).feed (beforePad rest)) d
        rwa [hnext]

/-! ## The end of the source -/

/-- The digits that are left give the last bytes. -/
theorem base64DecodeFinish_spec {s : Decoded} {d : DecodeState} (hholds : Holds s d) :
    ∃ dst', base64DecodeFinish d = some (dst', s.finish.length) ∧
      dst'.length = d.dst.length ∧ s.finish <+: dst' := by
  obtain ⟨hdstLen, hout, hb1, hb2, hb3, hroom⟩ := hholds
  obtain ⟨pending, out⟩ := s
  unfold base64DecodeFinish
  rw [hdstLen, hb1, hb2, hb3]
  cases pending with
  | none => exact ⟨d.dst, if_pos rfl, rfl, hout⟩
  | one b₁ =>
    have hlt : out.length < d.dst.length := by
      simp only [Pending.count] at hroom
      omega
    refine ⟨_, ?_, ?_, @prefix_set out _ _ (UInt8.ofNat (b₁.val <<< 2)) hout rfl hlt⟩
    · simp only [Pending.b1, Pending.b2]
      rw [if_neg (sextet_ne b₁).1, if_pos trivial, u8Set_eq hlt (shift_lt b₁)]
      simp only [Option.bind_eq_bind, Option.bind_some, Decoded.finish, length_append,
        length_singleton]
    · exact length_set
  | two b₁ b₂ =>
    have hlt : out.length < d.dst.length := by
      simp only [Pending.count] at hroom
      omega
    refine ⟨_, ?_, ?_, @prefix_set out _ _ (UInt8.ofNat (byte₁ b₁ b₂)) hout rfl hlt⟩
    · simp only [Pending.b1, Pending.b2, Pending.b3]
      rw [if_neg (sextet_ne b₁).1, if_neg (sextet_ne b₂).1, show (b₁.val <<< 2) ||| bitField b₂ 4
        6 = byte₁ b₁ b₂ from rfl, u8Set_eq hlt (byte₁_lt b₁ b₂)]
      simp only [Option.bind_eq_bind, Option.bind_some, if_true, Decoded.finish,
        length_append, length_singleton]
    · exact length_set
  | three b₁ b₂ b₃ =>
    have hlt : out.length + 2 < d.dst.length := by
      simp only [Pending.count] at hroom
      omega
    have h₁ := @prefix_set out _ _ (UInt8.ofNat (byte₁ b₁ b₂)) hout rfl (by omega)
    have h₂ := prefix_set (j := out.length + 1) (UInt8.ofNat (byte₂ b₂ b₃)) h₁
      (by simp only [length_append, length_singleton]) (by rw [length_set]; omega)
    rw [append_assoc] at h₂
    refine ⟨_, ?_, ?_, h₂⟩
    · simp only [Pending.b1, Pending.b2, Pending.b3, (sextet_ne b₁).1, (sextet_ne b₂).1,
        (sextet_ne b₃).1, if_false]
      rw [show (b₁.val <<< 2) ||| bitField b₂ 4 6 = byte₁ b₁ b₂ from rfl,
        u8Set_eq (by omega) (byte₁_lt b₁ b₂), Option.bind_eq_bind, Option.bind_some,
        show (bitField b₂ 0 4 <<< 4) ||| bitField b₃ 2 6 = byte₂ b₂ b₃ from rfl,
        u8Set_eq (by rw [length_set]; omega) (byte₂_lt b₂ b₃)]
      simp only [Option.bind_some, Decoded.finish, length_append, length_cons, length_nil]
    · simp only [length_set]

/-- What a text stands for: it is read up to the first `=`. -/
def decode (bytes : List UInt8) : List UInt8 :=
  (Decoded.start.feed (beforePad bytes)).finish

theorem base64DecodeBytevector_eq (bytes : List UInt8) :
    base64DecodeBytevector bytes = some (decode bytes) := by
  have hpart : (bytes.take bytes.length).drop 0 = bytes := by
    rw [take_length, drop_zero]
  have hroom : Decoded.start.out.length +
      3 * ((3 + Decoded.start.pending.count + bytes.length) / 4) ≤
        (List.replicate (3 * ((3 + bytes.length) >>> 2)) (0 : UInt8)).length := by
    rw [length_replicate, Nat.shiftRight_eq_div_pow]
    exact le_of_eq (Nat.zero_add _)
  obtain ⟨d, hrun, hlength, hholds, -⟩ := base64DecodeLoop_spec (s := Decoded.start) hpart
    (Nat.zero_add _) nil_prefix hroom
  obtain ⟨dst, hfinish, hdst, hpre⟩ := base64DecodeFinish_spec hholds
  change base64DecodeLoop bytes bytes.length 0 0 outsideChar outsideChar outsideChar _ = _ at hrun
  unfold base64DecodeBytevector
  simp only [hrun, hfinish, Option.bind_eq_bind, Option.bind_some, Option.some.injEq]
  split
  · rename_i hexact
    refine (hpre.eq_of_length ?_).symm
    rw [hexact, hdst, hlength, length_replicate]
  · exact (prefix_iff_eq_take.mp hpre).symm

/-! ## The round trip -/

section Fields

variable (b₁ b₂ b₃ : UInt8)

theorem bitField_zero (n width : ℕ) : bitField n 0 width = n % 2 ^ width :=
  Nat.and_two_pow_sub_one_eq_mod n width

theorem shiftLeft_or_bitField (x n start width : ℕ) :
    x <<< width ||| bitField n start (start + width) =
      x * 2 ^ width + n / 2 ^ start % 2 ^ width := by
  have hfield : bitField n start (start + width) = n / 2 ^ start % 2 ^ width := by
    unfold bitField
    rw [Nat.add_sub_cancel_left, Nat.shiftRight_eq_div_pow, Nat.and_two_pow_sub_one_eq_mod]
  rw [hfield, ← Nat.shiftLeft_add_eq_or_of_lt (Nat.mod_lt _ (Nat.two_pow_pos width)),
    Nat.shiftLeft_eq]

theorem sextet₂_eq : sextet₂ b₁ b₂ = b₁.toNat % 4 * 16 + b₂.toNat / 16 := by
  have hbyte := b₂.toNat_lt
  unfold sextet₂
  rw [Nat.and_comm, Nat.and_two_pow_sub_one_eq_mod _ 2, shiftLeft_or_bitField]
  omega

theorem sextet₃_eq : sextet₃ b₂ b₃ = b₂.toNat % 16 * 4 + b₃.toNat / 64 := by
  have hbyte := b₃.toNat_lt
  unfold sextet₃
  rw [shiftLeft_or_bitField, bitField_zero]
  omega

theorem byte₁_sextets :
    byte₁ ⟨sextet₁ b₁, sextet₁_lt b₁⟩ ⟨sextet₂ b₁ b₂, sextet₂_lt b₁ b₂⟩ = b₁.toNat := by
  have hbyte := b₂.toNat_lt
  unfold byte₁
  rw [shiftLeft_or_bitField]
  simp only [sextet₁, Nat.shiftRight_eq_div_pow, sextet₂_eq]
  omega

theorem byte₂_sextets :
    byte₂ ⟨sextet₂ b₁ b₂, sextet₂_lt b₁ b₂⟩ ⟨sextet₃ b₂ b₃, sextet₃_lt b₂ b₃⟩ = b₂.toNat := by
  have hbyte₂ := b₂.toNat_lt
  have hbyte₃ := b₃.toNat_lt
  unfold byte₂
  rw [shiftLeft_or_bitField, bitField_zero]
  simp only [sextet₂_eq, sextet₃_eq]
  omega

theorem byte₃_sextets :
    byte₃ ⟨sextet₃ b₂ b₃, sextet₃_lt b₂ b₃⟩ ⟨sextet₄ b₃, sextet₄_lt b₃⟩ = b₃.toNat := by
  have hbyte := b₃.toNat_lt
  have hlow : sextet₄ b₃ = b₃.toNat % 2 ^ 6 := by
    rw [sextet₄, Nat.and_comm, Nat.and_two_pow_sub_one_eq_mod _ 6]
  unfold byte₃
  rw [← Nat.shiftLeft_add_eq_or_of_lt (sextet₄_lt b₃), Nat.shiftLeft_eq]
  simp only [bitField_zero, sextet₃_eq, hlow]
  omega

end Fields

theorem feed_encChar {i : ℕ} (s : Decoded) (hlt : i < 64) (rest : List UInt8) :
    s.feed (beforePad (encChar i :: rest)) = (s.push ⟨i, hlt⟩).feed (beforePad rest) := by
  rw [beforePad_cons_of_ne (encChar_ne_pad hlt), ← Decoded.next_encChar]
  rfl

theorem decode_encode (bytes : List UInt8) : decode (encode bytes) = bytes := by
  unfold decode
  induction bytes using encode.induct with
  | case1 => rfl
  | case2 b₁ =>
    -- the missing bytes are taken for zeros
    have hlow : (0b11 &&& b₁.toNat) <<< 4 = sextet₂ b₁ 0 := (Nat.or_zero _).symm
    rw [encode, hlow, feed_encChar _ (sextet₁_lt b₁), feed_encChar _ (sextet₂_lt b₁ 0),
      beforePad_pad]
    show [UInt8.ofNat (byte₁ _ _)] = _
    rw [byte₁_sextets, UInt8.ofNat_toNat]
  | case3 b₁ b₂ =>
    have hmiddle : bitField b₂.toNat 0 4 <<< 2 = sextet₃ b₂ 0 := (Nat.or_zero _).symm
    rw [encode, hmiddle, feed_encChar _ (sextet₁_lt b₁), feed_encChar _ (sextet₂_lt b₁ b₂),
      feed_encChar _ (sextet₃_lt b₂ 0), beforePad_pad]
    show [UInt8.ofNat (byte₁ _ _), UInt8.ofNat (byte₂ _ _)] = _
    rw [byte₁_sextets, byte₂_sextets, UInt8.ofNat_toNat, UInt8.ofNat_toNat]
  | case4 b₁ b₂ b₃ rest ih =>
    simp only [encode, cons_append, nil_append]
    rw [feed_encChar _ (sextet₁_lt b₁), feed_encChar _ (sextet₂_lt b₁ b₂),
      feed_encChar _ (sextet₃_lt b₂ b₃), feed_encChar _ (sextet₄_lt b₃)]
    show ((Decoded.start.after [UInt8.ofNat (byte₁ _ _), UInt8.ofNat (byte₂ _ _),
      UInt8.ofNat (byte₃ _ _)]).feed _).finish = _
    rw [Decoded.feed_after, Decoded.finish_after, ih, byte₁_sextets, byte₂_sextets, byte₃_sextets]
    simp only [UInt8.ofNat_toNat, cons_append, nil_append]

/-- What is left of a text without the characters that the decoder skips. -/
def significant (text : List UInt8) : List UInt8 :=
  text.filter fun u => base64DecodeU8 u != outsideChar

theorem feed_significant (s : Decoded) (text : List UInt8) :
    s.feed (beforePad (significant text)) = s.feed (beforePad text) := by
  induction text generalizing s with
  | nil => rfl
  | cons u rest ih =>
    unfold significant at ih ⊢
    by_cases hu : u = pad
    · rw [hu, filter_cons_of_pos (by decide), beforePad_pad, beforePad_pad]
    · rw [beforePad_cons_of_ne hu]
      cases hsextet : sextet? u with
      | none =>
        rw [filter_cons_of_neg (by simp [base64DecodeU8_of_sextet?_none hsextet hu]), ih]
        show _ = (s.next u).feed _
        rw [Decoded.next_of_none hsextet]
      | some c =>
        rw [filter_cons_of_pos (by simp [base64DecodeU8_of_sextet?_some hsextet, (sextet_ne c).1]),
          beforePad_cons_of_ne hu]
        exact ih (s.next u)

/-- Neither routine leaves its buffer, and decoding inverts encoding, with any characters put in
between that the decoder skips. -/
theorem base64_roundTrip (bv text : List UInt8) :
    (base64DecodeBytevector text).isSome ∧ ∃ code, base64EncodeBytevector bv = some code ∧
      (significant text = significant code → base64DecodeBytevector text = some bv) := by
  rw [base64DecodeBytevector_eq]
  refine ⟨rfl, _, base64EncodeBytevector_eq bv, fun hsame => ?_⟩
  rw [decode, ← feed_significant, hsame, feed_significant]
  exact congrArg some (decode_encode bv)

/-- A newline in the code is skipped. -/
theorem base64_roundTrip_newline :
    base64DecodeBytevector [81, 10, 81, 61, 10, 61] = some [65] := by
  obtain ⟨code, hcode, hread⟩ := (base64_roundTrip [65] [81, 10, 81, 61, 10, 61]).2
  rw [base64EncodeBytevector_eq] at hcode
  cases hcode
  exact hread (by decide)

/-- A tilde is in no code, and the decoder does not skip it. -/
theorem base64_tilde :
    126 ∉ base64EncodeTable ∧ base64EncodeBytevector [65] = some [81, 81, 61, 61] ∧
      base64DecodeBytevector [81, 81, 126, 61, 61] = some [65, 15] := by
  rw [base64EncodeBytevector_eq, base64DecodeBytevector_eq]
  decide

end ChibiScheme.Base64
