import ChibiScheme.Port.Buffered

/-!
# Output to a descriptor

A descriptor that takes only some of the bytes it is given, or none for the moment,
must not lose any: `write-string` is executed again from the count that
`sexp_buffered_write_string_n` returns.

That count is wrong when a call is refused after a flush: every flush is counted with
the whole size of the buffer, also the bytes in it that are not from this call (the
`backlog`).  The tail of a character of several bytes is not tried again at all.
`Instr.Clean` says when neither happens; then nothing is lost in a run.
-/

namespace ChibiScheme

open List Option

/-- A call of `sexp_buffered_write_string_n` that returns the number of the bytes it has
copied, if it is refused with bytes left: its flushes found nothing in the buffer that
is not its own. -/
def CountSafe (p : Port) (len : ℕ) : Prop :=
  ∀ r, refusal p.size p.sink.replies 0 0 p.buf.length len = some r →
    r.flushes * p.size + (p.size - r.offset) < 2 ^ 31 ∧
      (r.backlog = 0 ∨ r.offset + r.len = p.size)

/-- An execution of an operation that does not meet one of the defects. -/
def Instr.Clean (p : Port) : Instr → Prop
  | .writeChar c => 0x80 ≤ c.toNat → ∀ offset replies,
      afterChar p.size p.sink.replies p.buf.length = some (offset, replies) →
        ¬ CutShort p.size replies offset (encodeChar c).tail.length
  | .writeString str => str.Whole ∧ CountSafe p str.bytes.length
  | .writeBytes bytes count => count ≤ bytes.length → CountSafe p count
  | _ => True

variable {p p' : Port}

/-- What an execution has to leave to be done. -/
def Outcome.text : Outcome → List UInt8
  | .retry instr => instr.text
  | _ => []

/-- An execution that keeps every byte; one that has to be repeated has used up a
reply. -/
structure Keeps (instr : Instr) (p : Port) (outcome : Outcome) (p' : Port) : Prop where
  follows : p.Follows p'
  contents : p'.contents ++ outcome.text = p.contents ++ instr.text
  progress : ∀ instr', outcome = .retry instr' →
    p'.sink.replies.length < p.sink.replies.length

private theorem opWriteChar_keeps (hready : p.Ready) (c : Char) (hclean : (Instr.writeChar c).Clean p) :
    ∃ outcome p', opWriteChar c p = some (outcome, p') ∧ Keeps (.writeChar c) p outcome p' := by
  by_cases hc : c.toNat < 0x80
  · have hencode : encodeChar c = [.ofNat c.toNat] := by
      simp [encodeChar, sexpUtf8CharByteCount, hc, sexpUtf8EncodeChar]
    obtain ⟨res, p', hrun, hfollows, hcases⟩ := sexpWriteChar_spec hready (.ofNat c.toNat)
    rcases hcases with ⟨-, rfl, hcontents, hused⟩ | ⟨-, rfl, hcontents⟩
    · refine ⟨_, p', opWriteChar_ascii hc hfollows.ready.isOpen (by simp) hrun, hfollows, ?_,
        fun _ _ => hused⟩
      rw [hcontents]
      rfl
    · refine ⟨_, p', opWriteChar_ascii hc hfollows.ready.isOpen (by simp) hrun, hfollows, ?_,
        by simp⟩
      simp [hcontents, Outcome.text, Instr.text, hencode]
  · have hc : 0x80 ≤ c.toNat := by omega
    obtain ⟨res, p', hrun, hfollows, hcases⟩ := sexpWriteUtf8Char_spec hready c
    rcases hcases with ⟨rfl, hcontents, hused⟩ | ⟨offset, replies, hafter, rfl, hwhole⟩
    · refine ⟨_, p', opWriteChar_utf8 hc hfollows.ready.isOpen (by simp) hrun, hfollows, ?_,
        fun _ _ => hused⟩
      rw [hcontents]
      rfl
    · refine ⟨_, p', opWriteChar_utf8 hc hfollows.ready.isOpen (by simp) hrun, hfollows, ?_,
        by simp⟩
      simp [hwhole (hclean hc offset replies hafter), Outcome.text, Instr.text]

theorem toInt_of_lt {n : ℕ} (hn : n < 2 ^ 31) : toInt n = n := by
  rw [toInt]
  exact Int.bmod_eq_of_le (by omega) (by omega)

theorem returned_eq {r : Refusal} {size len : ℕ} (hfits : r.Fits size 0 0 len)
    (hsmall : r.flushes * size + (size - r.offset) < 2 ^ 31) :
    toInt (r.flushes * size + (size - r.offset : ℕ)) =
      ((r.copied size len + r.backlog : ℕ) : ℤ) := by
  have hsame : r.copied size len + r.backlog = r.flushes * size + (size - r.offset) := by
    obtain ⟨hfull, hoffset, hcount, hshrinks⟩ := hfits
    clear hsmall
    rw [Refusal.copied]
    omega
  rw [hsame, ← toInt_of_lt hsmall]
  push_cast
  rfl

private theorem text_resume {bytes : List UInt8} {k count : ℕ} (hk : k ≤ count)
    (hcount : count ≤ bytes.length) :
    bytes.take k ++ (Instr.writeBytes (bytes.drop k) (count - k)).text = bytes.take count := by
  rw [Instr.text, if_pos (by rw [length_drop]; omega), ← take_add]
  congr 1
  omega

private theorem opWriteBytes_keeps (hready : p.Ready) (bytes : List UInt8) (count : ℕ)
    (hcount : count ≤ bytes.length) (hclean : CountSafe p count) :
    ∃ outcome p', opWriteBytes bytes count p = some (outcome, p') ∧
      Keeps (.writeBytes bytes count) p outcome p' := by
  have hlength : (bytes.take count).length = count := by
    rw [length_take]
    omega
  have htext : (Instr.writeBytes bytes count).text = bytes.take count := by
    rw [Instr.text, if_pos hcount]
  obtain ⟨hnone, hsome⟩ := sexpBufferedWriteStringN_spec hready (bytes.take count)
  rw [hlength] at hnone hsome
  cases hrefusal : refusal p.size p.sink.replies 0 0 p.buf.length count with
  | none =>
    obtain ⟨i, p', hrun, hfollows, hcontents⟩ := hnone hrefusal
    refine ⟨_, p', opWriteBytes_of_run hready.isOpen hcount hrun, hfollows, ?_, by simp⟩
    simp [hcontents, Outcome.text, htext]
  | some r =>
    obtain ⟨p', hrun, hfollows, hused, hfits, hcontents⟩ := hsome r hrefusal
    obtain ⟨hsmall, hexact⟩ := hclean r hrefusal
    have hcopied := hfits.copied_add
    rw [returned_eq hfits hsmall] at hrun
    clear hsmall
    set k := r.copied p.size count with hk
    refine ⟨_, p', opWriteBytes_of_run hready.isOpen hcount hrun, hfollows, ?_,
      fun _ _ => hused⟩
    rw [hcontents, htext, append_assoc, take_take, Nat.min_eq_left (by omega)]
    refine congrArg (p.contents ++ ·) ?_
    by_cases hfinished : k = count
    · -- nothing is left, and the count is at least that of the string
      rw [if_neg (by omega), hfinished, Outcome.text, append_nil]
      simp
    · obtain hbacklog : r.backlog = 0 := hexact.resolve_right (by omega)
      rw [hbacklog, Nat.add_zero, if_pos ⟨by omega, rfl⟩, Outcome.text]
      by_cases hzero : k = 0
      · rw [hzero, if_neg (by simp), htext, take_zero, nil_append]
      · rw [if_pos (by omega), Int.toNat_natCast]
        exact text_resume (by omega) hcount

/-- A clean instruction loses nothing. -/
theorem execute_keeps (hready : p.Ready) (instr : Instr) (hclean : instr.Clean p) :
    ∃ outcome p', execute instr p = some (outcome, p') ∧ Keeps instr p outcome p' := by
  cases instr with
  | writeChar c => exact opWriteChar_keeps hready c hclean
  | writeString str =>
    obtain ⟨hwhole, hsafe⟩ := hclean
    obtain ⟨outcome, p', hrun, hfollows, hcontents, hprogress⟩ :=
      opWriteBytes_keeps hready str.bytes str.bytes.length le_rfl hsafe
    refine ⟨outcome, p', hrun, hfollows, ?_, hprogress⟩
    rw [hcontents]
    simp [Instr.text, ← str.bytes_eq_data_iff.mpr hwhole]
  | writeBytes bytes count =>
    by_cases hcount : count ≤ bytes.length
    · exact opWriteBytes_keeps hready bytes count hcount (hclean hcount)
    · refine ⟨_, p, by rw [execute, opWriteBytes, if_pos (by omega)], hready.follows, ?_, by simp⟩
      rw [Instr.text, if_neg hcount, Outcome.text]
      simp
  | flush =>
    obtain ⟨hfollows, hcontents⟩ := sexpBufferedFlush_keeps hready true
    refine ⟨_, _, rfl, hfollows, ?_, by simp⟩
    simp [hcontents, Outcome.text, Instr.text]
  | getOutputString =>
    cases hget : sexpGetOutputString p with
    | ok str =>
      refine ⟨_, p, by rw [execute, hget], hready.follows, ?_, by simp⟩
      simp [Outcome.text, Instr.text]
    | error message =>
      refine ⟨_, p, by rw [execute, hget], hready.follows, ?_, by simp⟩
      simp [Outcome.text, Instr.text]

/-! ## Runs -/

/-- The next instruction is not about to fail. -/
def Machine.Clean (m : Machine) : Prop := ∀ instr ∈ m.todo.head?, instr.Clean m.port

/-- The first `n` steps are clean. -/
def Machine.CleanRun (m : Machine) (n : ℕ) : Prop := ∀ k < n, ∀ m', m.run k = some m' → m'.Clean

variable {m m' : Machine}

/-- A clean step loses nothing, and comes nearer to the end. -/
theorem step_keeps (hready : m.port.Ready) (hclean : m.Clean) :
    ∃ m', m.step = some m' ∧ m'.port.Ready ∧
      m'.port.contents ++ texts m'.todo = m.port.contents ++ texts m.todo ∧
      (m.todo ≠ [] → m'.todo.length + m'.port.sink.replies.length <
        m.todo.length + m.port.sink.replies.length) := by
  obtain ⟨p, todo⟩ := m
  cases todo with
  | nil => exact ⟨_, rfl, hready, rfl, by simp⟩
  | cons instr rest =>
    obtain ⟨outcome, p', hexecute, hfollows, hcontents, hprogress⟩ :=
      execute_keeps hready instr (hclean instr rfl)
    have hreplies : p'.sink.replies.length ≤ p.sink.replies.length := hfollows.replies
    cases outcome with
    | retry instr' =>
      have hused := hprogress instr' rfl
      refine ⟨⟨p', instr' :: rest⟩, by simp [Machine.step, hexecute], hfollows.ready, ?_, ?_⟩
      · have htext : p'.contents ++ instr'.text = p.contents ++ instr.text := hcontents
        simp only [texts, flatMap_cons, ← append_assoc, htext]
      · intro _
        simpa using hused
    | finished =>
      refine ⟨⟨p', rest⟩, by simp [Machine.step, hexecute], hfollows.ready, ?_, ?_⟩
      · rw [Outcome.text, append_nil] at hcontents
        · simp only [texts, flatMap_cons, ← append_assoc, hcontents]
        · simp
      · intro _
        simp only [length_cons]
        omega
    | raised message =>
      refine ⟨⟨p', rest⟩, by simp [Machine.step, hexecute], hfollows.ready, ?_, ?_⟩
      · rw [Outcome.text, append_nil] at hcontents
        · simp only [texts, flatMap_cons, ← append_assoc, hcontents]
        · simp
      · intro _
        simp only [length_cons]
        omega

theorem Machine.CleanRun.head {n : ℕ} (hclean : m.CleanRun (n + 1)) : m.Clean :=
  hclean 0 (Nat.succ_pos n) m rfl

theorem Machine.CleanRun.tail {n : ℕ} (hclean : m.CleanRun (n + 1)) (hstep : m.step = some m') :
    m'.CleanRun n := by
  intro k hk m'' hrun
  refine hclean (k + 1) (by omega) m'' ?_
  rw [Machine.run, hstep]
  exact hrun

/-- A clean run loses nothing. -/
theorem run_keeps (n : ℕ) (hready : m.port.Ready) (hclean : m.CleanRun n) :
    ∃ m', m.run n = some m' ∧ m'.port.Ready ∧
      m'.port.contents ++ texts m'.todo = m.port.contents ++ texts m.todo := by
  induction n generalizing m with
  | zero => exact ⟨m, rfl, hready, rfl⟩
  | succ n ih =>
    obtain ⟨m₁, hstep, hready₁, hcontents₁, -⟩ := step_keeps hready hclean.head
    obtain ⟨m₂, hrun, hready₂, hcontents₂⟩ := ih hready₁ (hclean.tail hstep)
    refine ⟨m₂, ?_, hready₂, hcontents₂.trans hcontents₁⟩
    rw [Machine.run, hstep]
    exact hrun

theorem run_ends (bound : ℕ) (hready : m.port.Ready) (hclean : ∀ n, m.CleanRun n)
    (hbound : m.todo.length + m.port.sink.replies.length ≤ bound) :
    ∃ n m', m.run n = some m' ∧ m'.todo = [] := by
  induction bound generalizing m with
  | zero =>
    refine ⟨0, m, rfl, length_eq_zero_iff.mp (by omega)⟩
  | succ bound ih =>
    by_cases hdone : m.todo = []
    · exact ⟨0, m, rfl, hdone⟩
    obtain ⟨m₁, hstep, hready₁, -, hless⟩ := step_keeps hready (hclean 1).head
    have hclean₁ : ∀ n, m₁.CleanRun n := fun n => (hclean (n + 1)).tail hstep
    obtain ⟨n, m₂, hrun, hend⟩ := ih hready₁ hclean₁ (by have := hless hdone; omega)
    refine ⟨n + 1, m₂, ?_, hend⟩
    rw [Machine.run, hstep]
    exact hrun

/-- `sexp_open_output_file_descriptor` and `sexp_make_custom_output_port`, with what is
behind the port. -/
def openOutputPort (sink : Sink) : Port := ⟨true, 4096, [], sink⟩

/-- In a run of clean steps on a new port nothing is lost, repeated or put out of order at
any time, and the run ends with everything in the descriptor or in the buffer. -/
theorem output_keeps (sink : Sink) (hnew : sink.delivered = []) (htakes : sink.TakesAll)
    (instrs : List Instr) :
    (∀ n, Machine.CleanRun ⟨openOutputPort sink, instrs⟩ n →
      ∃ m, Machine.run n ⟨openOutputPort sink, instrs⟩ = some m ∧
        m.port.sink.delivered ++ m.port.buf ++ texts m.todo = texts instrs) ∧
    ((∀ n, Machine.CleanRun ⟨openOutputPort sink, instrs⟩ n) →
      ∃ n m, Machine.run n ⟨openOutputPort sink, instrs⟩ = some m ∧ m.todo = [] ∧
        m.port.sink.delivered ++ m.port.buf = texts instrs) := by
  have hready : (openOutputPort sink).Ready := ⟨rfl, by simp [openOutputPort], Nat.zero_le _, htakes⟩
  have hempty : (openOutputPort sink).contents = [] := by
    rw [Port.contents, openOutputPort, hnew, append_nil]
  have hkeeps : ∀ n, Machine.CleanRun ⟨openOutputPort sink, instrs⟩ n →
      ∃ m, Machine.run n ⟨openOutputPort sink, instrs⟩ = some m ∧
        m.port.sink.delivered ++ m.port.buf ++ texts m.todo = texts instrs := by
    intro n hclean
    obtain ⟨m, hrun, -, hcontents⟩ := run_keeps n hready hclean
    refine ⟨m, hrun, ?_⟩
    rw [← Port.contents, hcontents, hempty, nil_append]
  refine ⟨hkeeps, fun hclean => ?_⟩
  obtain ⟨n, m, hrun, hend⟩ := run_ends _ hready hclean le_rfl
  obtain ⟨m', hrun', hcontents⟩ := hkeeps n (hclean n)
  obtain rfl := some.inj (hrun.symm.trans hrun')
  refine ⟨n, m, hrun, hend, ?_⟩
  rw [hend, texts, flatMap_nil, append_nil] at hcontents
  exact hcontents

/-- A string of these bytes. -/
def wholeString (bytes : List UInt8) : SexpString := ⟨bytes, 0, bytes.length, by simp⟩

theorem cleanRun_of_step (hclean : m.Clean) (hstep : m.step = some m')
    (hrest : ∀ n, m'.CleanRun n) (n : ℕ) : m.CleanRun n := by
  intro k hk m'' hrun
  cases k with
  | zero => exact some.inj hrun ▸ hclean
  | succ k =>
    rw [Machine.run, hstep] at hrun
    exact hrest n k (by omega) m'' hrun

theorem cleanRun_of_done (hdone : m.todo = []) (n : ℕ) : m.CleanRun n := by
  have hstep : m.step = some m := by rw [Machine.step, hdone]
  intro k hk m' hrun
  have hsame : m.run k = some m := by
    clear hrun hk
    induction k with
    | zero => rfl
    | succ k ih => rw [Machine.run, hstep]; exact ih
  obtain rfl := some.inj (hsame.symm.trans hrun)
  simp [Machine.Clean, hdone]

/-- The string `abc`, and a flush of which the descriptor takes the first byte. -/
theorem output_keeps_partial :
    ∃ n m, Machine.run n ⟨openOutputPort (.fileno [] [2]),
        [.writeString (wholeString [97, 98, 99]), .flush]⟩ = some m ∧ m.todo = [] ∧
      m.port.sink.delivered ++ m.port.buf = [97, 98, 99] := by
  have hwrite : Machine.Clean ⟨openOutputPort (.fileno [] [2]),
      [.writeString (wholeString [97, 98, 99]), .flush]⟩ := by
    intro instr hinstr
    obtain rfl := some.inj hinstr
    refine ⟨⟨rfl, rfl⟩, fun r hr => ?_⟩
    rw [show refusal (openOutputPort (.fileno [] [2])).size _ 0 0 _ _ = none from rfl] at hr
    simp at hr
  have hflush : Machine.Clean ⟨⟨true, 4096, [97, 98, 99], .fileno [] [2]⟩, [.flush]⟩ := by
    intro instr hinstr
    obtain rfl := some.inj hinstr
    trivial
  refine (output_keeps (.fileno [] [2]) rfl trivial _).2 ?_
  exact cleanRun_of_step hwrite rfl (cleanRun_of_step hflush rfl (cleanRun_of_done rfl))

/-- One byte, and two buffers full of bytes of which the descriptor takes the first and
refuses the second: the last byte is lost. -/
theorem output_loses_byte :
    ¬ ∀ n, ∃ m, Machine.run n ⟨openOutputPort (.fileno [] [0, 4096]),
        [.writeString (wholeString [97]), .writeString (wholeString (List.replicate 8192 98))]⟩
          = some m ∧
      m.port.sink.delivered ++ m.port.buf ++ texts m.todo =
        texts [.writeString (wholeString [97]),
          .writeString (wholeString (List.replicate 8192 98))] := by
  intro hall
  obtain ⟨m, hrun, hcontents⟩ := hall 2
  set long := List.replicate 8192 (98 : UInt8) with hlong
  have hlength : long.length = 8192 := length_replicate
  have hready : Port.Ready ⟨true, 4096, [97], .fileno [] [0, 4096]⟩ :=
    ⟨rfl, by simp, by simp, trivial⟩
  have hrefusal : refusal 4096 [0, 4096] 0 0 1 long.length = some ⟨1, 1, 0, 4097⟩ := by
    rw [hlength]
    rfl
  obtain ⟨p', hcall, -, -, -, hcopied⟩ :=
    (sexpBufferedWriteStringN_spec hready long).2 _ hrefusal
  -- the count that is returned is that of the whole string
  have hfinished : opWriteBytes long long.length ⟨true, 4096, [97], .fileno [] [0, 4096]⟩ =
      some (.finished, p') := by
    rw [opWriteBytes_of_run rfl le_rfl (by rw [take_length]; exact hcall), hlength]
    rfl
  have hfirst : Machine.step ⟨openOutputPort (.fileno [] [0, 4096]),
      [.writeString (wholeString [97]), .writeString (wholeString long)]⟩ =
      some ⟨⟨true, 4096, [97], .fileno [] [0, 4096]⟩, [.writeString (wholeString long)]⟩ := rfl
  have hsecond : Machine.step ⟨⟨true, 4096, [97], .fileno [] [0, 4096]⟩,
      [.writeString (wholeString long)]⟩ = some ⟨p', []⟩ := by
    have hexecute : execute (.writeString (wholeString long))
        ⟨true, 4096, [97], .fileno [] [0, 4096]⟩ = some (.finished, p') := hfinished
    simp [Machine.step, hexecute]
  have hend : m = ⟨p', []⟩ := by
    rw [Machine.run, hfirst] at hrun
    simp only [bind_eq_bind, bind_some, Machine.run, hsecond] at hrun
    exact (some.inj hrun).symm
  subst hend
  have hlengths := congrArg List.length hcontents
  rw [← Port.contents, hcopied] at hlengths
  simp [Port.contents, Sink.delivered, texts, Instr.text, SexpString.length_data, wholeString,
    Refusal.copied, hlength] at hlengths

end ChibiScheme
