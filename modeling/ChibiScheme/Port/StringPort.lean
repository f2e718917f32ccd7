import ChibiScheme.Port.Buffered

/-!
# String output ports

What `get-output-string` returns at any time is what was written up to then, in the
order in which it was written, as long as every string that is written has a
bytevector to itself: `write-string` hands the whole bytevector of a string to the
port, also when the string is only a part of it.
-/

namespace ChibiScheme

open List

/-- `sexp_open_output_string_op` -/
def sexpOpenOutputString : Port := ⟨true, 4096, [], .string []⟩

/-- The bytes given to an instruction. -/
def Instr.handed : Instr → List UInt8
  | .writeString str => str.bytes
  | instr => instr.text

/-- A string port that can be written to. -/
structure Port.StringReady (p : Port) : Prop extends p.Ready where
  isString : p.sink.isString = true

variable {p p' : Port} {instr : Instr}

theorem Port.StringReady.of_follows (hready : p.StringReady) (hfollows : p.Follows p') :
    p'.StringReady := ⟨hfollows.ready, hfollows.isString.trans hready.isString⟩

theorem Port.StringReady.replies (hready : p.StringReady) : p.sink.replies = [] := by
  have hstring := hready.isString
  cases hsink : p.sink with
  | fileno accepted replies => simp [hsink, Sink.isString] at hstring
  | custom accepted replies => simp [hsink, Sink.isString] at hstring
  | string chunks => rfl

theorem sexpGetOutputString_eq (hready : p.StringReady) : sexpGetOutputString p = .ok p.contents := by
  have hstring := hready.isString
  have hopen := hready.isOpen
  cases hsink : p.sink with
  | fileno accepted replies => simp [hsink, Sink.isString] at hstring
  | custom accepted replies => simp [hsink, Sink.isString] at hstring
  | string chunks =>
    simp only [sexpGetOutputString, hopen, hsink, Port.contents, Sink.delivered]
    by_cases hbuf : 0 < p.buf.length
    · simp [hbuf]
    · obtain hnil : p.buf = [] := length_eq_zero_iff.mp (by omega)
      simp [hnil]

theorem sexpWriteStringN_stringReady (hready : p.StringReady) (str : List UInt8) :
    ∃ count p', sexpBufferedWriteStringN str p = some (count, .done, p') ∧ p.Follows p' ∧
      p'.contents = p.contents ++ str := by
  refine (sexpBufferedWriteStringN_spec hready.toReady str).1 ?_
  rw [hready.replies]
  rfl

private theorem not_cutShort_nil {size offset len : ℕ} : ¬ CutShort size [] offset len := by
  rintro ⟨r, hr, -⟩
  simp [refusal] at hr

private theorem opWriteChar_stringReady (hready : p.StringReady) (c : Char) :
    ∃ p', opWriteChar c p = some (.finished, p') ∧ p.Follows p' ∧
      p'.contents = p.contents ++ encodeChar c := by
  have hreplies := hready.replies
  by_cases hc : c.toNat < 0x80
  · have hencode : encodeChar c = [.ofNat c.toNat] := by
      simp [encodeChar, sexpUtf8CharByteCount, hc, sexpUtf8EncodeChar]
    obtain ⟨res, p', hrun, hfollows, hcases⟩ := sexpWriteChar_spec hready.toReady (.ofNat c.toNat)
    rcases hcases with ⟨-, -, -, hused⟩ | ⟨-, rfl, hcontents⟩
    · simp [hreplies] at hused
    · refine ⟨p', opWriteChar_ascii hc hfollows.ready.isOpen (by simp) hrun, hfollows, ?_⟩
      rw [hcontents, hencode]
  · obtain ⟨res, p', hrun, hfollows, hcases⟩ := sexpWriteUtf8Char_spec hready.toReady c
    rcases hcases with ⟨-, -, hused⟩ | ⟨offset, replies, hafter, rfl, hwhole⟩
    · simp [hreplies] at hused
    refine ⟨p', opWriteChar_utf8 (by omega) hfollows.ready.isOpen (by simp) hrun, hfollows,
      hwhole ?_⟩
    obtain rfl : replies = [] := by
      simp only [hreplies, afterChar] at hafter
      split at hafter
      · exact (Prod.mk.inj (Option.some.inj hafter)).2.symm
      · split at hafter
        · simp at hafter
        · exact (Prod.mk.inj (Option.some.inj hafter)).2.symm
    exact not_cutShort_nil

private theorem opWriteBytes_stringReady (hready : p.StringReady) (bytes : List UInt8) (count : ℕ) :
    ∃ outcome p', opWriteBytes bytes count p = some (outcome, p') ∧
      (∀ instr, outcome ≠ .retry instr) ∧ p.Follows p' ∧
      p'.contents = p.contents ++ (Instr.writeBytes bytes count).text := by
  by_cases hcount : count ≤ bytes.length
  · obtain ⟨i, p', hrun, hfollows, hcontents⟩ :=
      sexpWriteStringN_stringReady hready (bytes.take count)
    refine ⟨_, p', opWriteBytes_of_run hready.isOpen hcount hrun, by simp, hfollows, ?_⟩
    rw [hcontents, Instr.text, if_pos hcount]
  · refine ⟨_, p, by rw [opWriteBytes, if_pos (by omega)], by simp, hready.toReady.follows, ?_⟩
    rw [Instr.text, if_neg hcount, append_nil]

theorem execute_stringReady (hready : p.StringReady) (instr : Instr) :
    ∃ outcome p', execute instr p = some (outcome, p') ∧ (∀ instr', outcome ≠ .retry instr') ∧
      p.Follows p' ∧ p'.contents = p.contents ++ instr.handed := by
  cases instr with
  | writeChar c =>
    obtain ⟨p', hrun, hfollows, hcontents⟩ := opWriteChar_stringReady hready c
    exact ⟨_, p', hrun, by simp, hfollows, hcontents⟩
  | writeString str =>
    obtain ⟨outcome, p', hrun, hretry, hfollows, hcontents⟩ :=
      opWriteBytes_stringReady hready str.bytes str.bytes.length
    refine ⟨outcome, p', hrun, hretry, hfollows, ?_⟩
    simpa [Instr.text, Instr.handed] using hcontents
  | writeBytes bytes count => exact opWriteBytes_stringReady hready bytes count
  | flush =>
    obtain ⟨hfollows, hcontents⟩ := sexpBufferedFlush_keeps hready.toReady true
    refine ⟨_, _, rfl, by simp, hfollows, ?_⟩
    rw [hcontents, Instr.handed, Instr.text, append_nil]
    simp
  | getOutputString =>
    refine ⟨.finished, p, ?_, by simp, hready.toReady.follows, ?_⟩
    · simp [execute, sexpGetOutputString_eq hready]
    · simp [Instr.handed, Instr.text]

theorem run_stringReady (n : ℕ) (m : Machine) (hready : m.port.StringReady) :
    ∃ m', m.run n = some m' ∧ m'.port.StringReady ∧
      m'.port.contents = m.port.contents ++ (m.todo.take n).flatMap Instr.handed := by
  induction n generalizing m with
  | zero => exact ⟨m, rfl, hready, by simp⟩
  | succ n ih =>
    obtain ⟨p, todo⟩ := m
    cases todo with
    | nil =>
      obtain ⟨m', hrun, hready', hcontents⟩ := ih ⟨p, []⟩ hready
      refine ⟨m', hrun, hready', ?_⟩
      simpa using hcontents
    | cons instr rest =>
      obtain ⟨outcome, p', hexecute, hretry, hfollows, hcontents⟩ :=
        execute_stringReady hready instr
      have hstep : Machine.step ⟨p, instr :: rest⟩ = some ⟨p', rest⟩ := by
        cases outcome with
        | finished => simp [Machine.step, hexecute]
        | retry instr' => exact absurd rfl (hretry instr')
        | raised message => simp [Machine.step, hexecute]
      obtain ⟨m', hrun, hready', hcontents'⟩ := ih ⟨p', rest⟩ (hready.of_follows hfollows)
      refine ⟨m', ?_, hready', ?_⟩
      · rw [Machine.run, hstep]
        exact hrun
      · rw [hcontents', hcontents]
        simp

theorem handed_eq_text_iff : instr.handed = instr.text ↔
    ∀ str, instr = .writeString str → str.Whole := by
  cases instr with
  | writeString str =>
    rw [show (Instr.writeString str).handed = str.bytes from rfl,
      show (Instr.writeString str).text = str.data from rfl, str.bytes_eq_data_iff]
    simp
  | writeChar c => simp [Instr.handed]
  | writeBytes bytes count => simp [Instr.handed]
  | flush => simp [Instr.handed]
  | getOutputString => simp [Instr.handed]

theorem stringReady_sexpOpenOutputString : sexpOpenOutputString.StringReady :=
  ⟨⟨rfl, by decide, Nat.zero_le _, trivial⟩, rfl⟩

/-- At any time in a run on a new port, `get-output-string` returns what has been written
so far, if and only if every string that the run writes has a bytevector to itself. -/
theorem getOutputString_iff (instrs : List Instr) :
    (∀ n, ∃ m, Machine.run n ⟨sexpOpenOutputString, instrs⟩ = some m ∧
      sexpGetOutputString m.port = .ok (texts (instrs.take n))) ↔
    ∀ str, .writeString str ∈ instrs → str.Whole := by
  have hrun : ∀ n, ∃ m, Machine.run n ⟨sexpOpenOutputString, instrs⟩ = some m ∧
      sexpGetOutputString m.port = .ok ((instrs.take n).flatMap Instr.handed) := by
    intro n
    obtain ⟨m, hrun, hready, hcontents⟩ :=
      run_stringReady n ⟨sexpOpenOutputString, instrs⟩ stringReady_sexpOpenOutputString
    refine ⟨m, hrun, ?_⟩
    rw [sexpGetOutputString_eq hready, hcontents]
    rfl
  constructor
  · intro hall str hstr
    have heq : ∀ n, (instrs.take n).flatMap Instr.handed = (instrs.take n).flatMap Instr.text := by
      intro n
      obtain ⟨m, hrun, hhanded⟩ := hrun n
      obtain ⟨m', hrun', htext⟩ := hall n
      obtain rfl := Option.some.inj (hrun.symm.trans hrun')
      exact Except.ok.inj (hhanded.symm.trans htext)
    -- compare the output before and after the string
    obtain ⟨n, hn, hinstr⟩ := getElem_of_mem hstr
    have hnext := heq (n + 1)
    rw [take_succ_eq_append_getElem hn, hinstr, flatMap_append, flatMap_append, heq n] at hnext
    have hsame : (Instr.writeString str).handed = (Instr.writeString str).text := by
      simpa using hnext
    exact handed_eq_text_iff.mp hsame str rfl
  · intro hwhole n
    obtain ⟨m, hrun, hhanded⟩ := hrun n
    refine ⟨m, hrun, ?_⟩
    have heq : (instrs.take n).flatMap Instr.handed = texts (instrs.take n) := by
      rw [texts, flatMap_def, flatMap_def]
      refine congrArg List.flatten (map_congr_left fun instr hinstr => ?_)
      refine handed_eq_text_iff.mpr ?_
      rintro str rfl
      exact hwhole str (mem_of_mem_take hinstr)
    rw [hhanded, heq]

/-- The string `bc` that shares the bytevector of `abc`. -/
def sharedString : SexpString := ⟨[97, 98, 99], 1, 2, by decide⟩

/-- Writing `bc` puts `abc` into the port. -/
theorem getOutputString_shared :
    ¬ ∀ n, ∃ m, Machine.run n ⟨sexpOpenOutputString, [.writeString sharedString]⟩ = some m ∧
      sexpGetOutputString m.port = .ok (texts ([Instr.writeString sharedString].take n)) := by
  intro hall
  obtain ⟨m, hrun, houtput⟩ := hall 1
  have hport : Machine.run 1 ⟨sexpOpenOutputString, [.writeString sharedString]⟩ =
      some ⟨⟨true, 4096, [97, 98, 99], .string []⟩, []⟩ := rfl
  obtain rfl := Option.some.inj (hport.symm.trans hrun)
  have hsame : ([97, 98, 99] : List UInt8) = [98, 99] := Except.ok.inj houtput
  exact absurd hsame (by decide)

end ChibiScheme
