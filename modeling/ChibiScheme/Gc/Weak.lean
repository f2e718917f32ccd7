import ChibiScheme.Gc.Cycle

/-!
# Weak references after a collection

A collection leaves no dangling reference in the slots it follows and in weak slots.  The
value of an ephemeron is neither: it is not followed, also where the key is reachable, and
it is only reset where the key is gone.  If nothing else refers to the value, it is freed
under an ephemeron whose key is still there.
-/

namespace ChibiScheme.Gc

open Tiling

variable {types : ℕ → TypeSpec} {h h' : Heap} {roots : List Ref}

/-- Every reference out of an object, strong or weak or the value of an ephemeron, is to an
object. -/
def NoDangling (types : ℕ → TypeSpec) (mem : Mem) : Prop :=
  ∀ a o, mem a = .object o → (∀ x ∈ o.strongRefs types, x.Valid mem) ∧
    (0 < (types o.tag).weakBase →
      ∀ i < o.numWeakSlots types + (types o.tag).weakLenExtra, (o.weakSlot types i).Valid mem)

/-- Where a key does not refer to garbage, neither does the value. -/
def ValuesAlive (types : ℕ → TypeSpec) (roots : List Ref) (mem : Mem) : Prop :=
  ∀ a o, mem a = .object o → Live types roots mem a → 0 < (types o.tag).weakBase →
    (∃ j < o.numWeakSlots types, Alive types roots mem (o.weakSlot types j)) →
      ∀ i < (types o.tag).weakLenExtra,
        Alive types roots mem (o.weakSlot types (o.numWeakSlots types + i))

theorem Live.object (hok : HeapOk types h) (hroots : ∀ x ∈ roots, x.Valid h.mem) {a : ℕ}
    (hlive : Live types roots h.mem a) : ∃ o, h.mem a = .object o := by
  obtain ⟨b, hb, hpath⟩ := hlive
  induction hpath with
  | refl => exact hroots _ hb b rfl
  | tail _ hedge _ =>
    obtain ⟨o, ho, href⟩ := hedge
    exact hok.sound _ o ho _ href _ rfl

variable {maxFreed : ℕ}

theorem Collected.valid_iff (hok : HeapOk types h) (hroots : ∀ x ∈ roots, x.Valid h.mem)
    (hcollected : Collected types roots h h' maxFreed) {x : Ref} :
    x.Valid h'.mem ↔ Alive types roots h.mem x := by
  constructor
  · intro hvalid a ha
    obtain ⟨o', ho'⟩ := hvalid a ha
    obtain ⟨o, -, hlive⟩ := hcollected.dead a o' ho'
    exact hlive
  · intro halive a ha
    have hlive := halive a ha
    obtain ⟨o, ho⟩ := hlive.object hok hroots
    obtain ⟨o', ho', -⟩ := hcollected.live a o ho hlive
    exact ⟨o', ho'⟩

theorem Collected.origin (hcollected : Collected types roots h h' maxFreed) {a : ℕ} {o' : Obj}
    (ho' : h'.mem a = .object o') :
    ∃ o, h.mem a = .object o ∧ Live types roots h.mem a ∧
      ObjectReset types (Alive types roots h.mem) o o' := by
  obtain ⟨o, ho, hlive⟩ := hcollected.dead a o' ho'
  obtain ⟨o₁, ho₁, hreset⟩ := hcollected.live a o ho hlive
  obtain rfl := Cell.object.inj (ho'.symm.trans ho₁)
  exact ⟨o, ho, hlive, hreset⟩

/-- A collection leaves a dangling reference exactly if there is an ephemeron in use whose
key is not garbage while its value is. -/
theorem Collected.noDangling_iff (hok : HeapOk types h) (hroots : ∀ x ∈ roots, x.Valid h.mem)
    (hcollected : Collected types roots h h' maxFreed) :
    NoDangling types h'.mem ↔ ValuesAlive types roots h.mem := by
  constructor
  · intro hnone a o ho hlive hbase hkey i hi
    obtain ⟨o', ho', hreset⟩ := hcollected.live a o ho hlive
    have hvalid := (hnone a o' ho').2
    rw [hreset.resets.tag, hreset.resets.numWeakSlots] at hvalid
    have hslot := hvalid hbase (o.numWeakSlots types + i) (by omega)
    rcases hreset.extra hbase i hi with ⟨hall, -⟩ | ⟨-, hsame⟩
    · obtain ⟨j, hj, halive⟩ := hkey
      exact absurd halive (hall j hj)
    · rw [hsame, hcollected.valid_iff hok hroots] at hslot
      exact hslot
  · intro hvalues a o' ho'
    obtain ⟨o, ho, hlive, hreset⟩ := hcollected.origin ho'
    refine ⟨fun x hx => hcollected.ok.sound a o' ho' x hx, fun hbase i hi => ?_⟩
    rcases Nat.lt_or_ge i (o'.numWeakSlots types) with hweak | hextra
    · exact hcollected.ok.weak a o' ho' hbase i hweak
    obtain ⟨k, rfl⟩ := Nat.exists_eq_add_of_le hextra
    rw [hreset.resets.tag] at hbase hi
    rw [hreset.resets.numWeakSlots] at hi ⊢
    rcases hreset.extra hbase k (by omega) with ⟨-, n, himm⟩ | ⟨hkey, hsame⟩
    · rw [himm]
      exact Ref.valid_imm n _
    · rw [hsame, hcollected.valid_iff hok hroots]
      exact hvalues a o ho hlive hbase hkey k (by omega)

/-- For every heap and all roots, a collection comes to an end, and leaves no dangling
reference if and only if no ephemeron that is in use has a value that is garbage under a
key that is not. -/
theorem sexpGc_noDangling_iff (types : ℕ → TypeSpec) (h : Heap) (hok : HeapOk types h)
    (roots : List Ref) (hroots : ∀ x ∈ roots, x.Valid h.mem) :
    ∃ h' maxFreed sumFreed, sexpGc types roots h = some (h', maxFreed, sumFreed) ∧
      (NoDangling types h'.mem ↔ ValuesAlive types roots h.mem) := by
  obtain ⟨h', maxFreed, sumFreed, hrun, -, hcollected⟩ := sexpGc_spec hok hroots
  exact ⟨h', maxFreed, sumFreed, hrun, hcollected.noDangling_iff hok hroots⟩

/-! ## An ephemeron -/

/-- The row of ephemerons in the table of types. -/
def sexpEphemeronType : TypeSpec := ⟨1, 2, 0, 0, 24, 0, 1, 1, 0, 1⟩

/-- `SEXP_EPHEMERON` in the default build. -/
def sexpEphemeron : ℕ := 40

/-- A table of types with ephemerons and pairs. -/
def weakTypes (tag : ℕ) : TypeSpec := if tag = sexpEphemeron then sexpEphemeronType else sexpPairType

theorem weakTypes_sizeBase (tag : ℕ) : 0 < (weakTypes tag).sizeBase := by
  unfold weakTypes
  split
  · decide
  · decide

/-- An ephemeron of a key and a value, behind the word of its header. -/
def ephemeronObj (key value : Ref) : Obj :=
  ⟨sexpEphemeron, [.imm 0, key, value], 0, 0, 0, [], false, false⟩

private theorem exists_ephemeron :
    ∃ h, Reachable weakTypes h ∧ h.mem 96 = .object (Shape.object weakTypes ⟨6, 0, 0, 0⟩) ∧
      h.mem 128 = .object (Shape.object weakTypes ⟨6, 0, 0, 0⟩) ∧ h.mem 160 = .object (ephemeronObj (.ptr 96) (.ptr 128)) := by
  obtain ⟨h₁, h₂, h₃, hrun₁, hrun₂, hrun₃, hkey, hvalue, heph, hpresent, hchunks₁, hchunks₂⟩ :
      ∃ h₁ h₂ h₃,
      sexpAllocTagged weakTypes [] none ⟨6, 0, 0, 0⟩ (sexpBootstrapHeap 0 0 16) =
        some (some 96, h₁) ∧
      sexpAllocTagged weakTypes [] none ⟨6, 0, 0, 0⟩ h₁ = some (some 128, h₂) ∧
      sexpAllocTagged weakTypes [] none ⟨sexpEphemeron, 0, 0, 0⟩ h₂ = some (some 160, h₃) ∧
      h₃.mem 96 = .object (Shape.object weakTypes ⟨6, 0, 0, 0⟩) ∧
      h₃.mem 128 = .object (Shape.object weakTypes ⟨6, 0, 0, 0⟩) ∧
      h₃.mem 160 = .object (Shape.object weakTypes ⟨sexpEphemeron, 0, 0, 0⟩) ∧
      h₃.weakPresent = true ∧ h₁.chunks = (sexpBootstrapHeap 0 0 16).chunks ∧
      h₂.chunks = (sexpBootstrapHeap 0 0 16).chunks :=
    ⟨_, _, _, rfl, rfl, rfl, rfl, rfl, rfl, rfl, rfl, rfl⟩
  have hroots : ∀ mem, ∀ x ∈ ([] : List Ref), x.Valid mem := by simp
  have hfresh : ∀ chunks size, GrowFresh chunks size none := fun _ _ base heq => by cases heq
  have hsizes : ∀ size, size < 2 ^ 57 → SizesExact (sexpBootstrapHeap 0 0 16).chunks size :=
    fun size hsize => ⟨hsize, by decide⟩
  have hassign : Assignable weakTypes h₃ 160 (ephemeronObj (.ptr 96) (.ptr 128)) := by
    refine ⟨⟨_, heph, rfl⟩, rfl, fun x hx => ?_, fun _ i hi => ?_, fun habsent => ?_⟩
    · have hnone : (ephemeronObj (.ptr 96) (.ptr 128)).strongRefs weakTypes = [] := rfl
      rw [hnone] at hx
      cases hx
    · obtain rfl : i = 0 := Nat.lt_one_iff.mp hi
      intro a ha
      obtain rfl : 96 = a := Ref.ptr.inj ha
      exact ⟨_, hkey⟩
    · rw [hpresent] at habsent
      cases habsent
  have hstep₁ : Step weakTypes (sexpBootstrapHeap 0 0 16) h₁ :=
    .alloc [] none ⟨6, 0, 0, 0⟩ (some 96) h₁ (hroots _) (hsizes _ (by decide)) (hfresh _ _) hrun₁
  have hstep₂ : Step weakTypes h₁ h₂ :=
    .alloc [] none ⟨6, 0, 0, 0⟩ (some 128) h₂ (hroots _)
      (hchunks₁ ▸ hsizes _ (by decide)) (hfresh _ _) hrun₂
  have hstep₃ : Step weakTypes h₂ h₃ :=
    .alloc [] none ⟨sexpEphemeron, 0, 0, 0⟩ (some 160) h₃ (hroots _)
      (hchunks₂ ▸ hsizes _ (by decide)) (hfresh _ _) hrun₃
  have hreach : Reachable weakTypes
      { h₃ with mem := h₃.mem.set 160 (.object (ephemeronObj (.ptr 96) (.ptr 128))) } :=
    ⟨0, 0, 16, (((Relation.ReflTransGen.single hstep₁).tail hstep₂).tail hstep₃).tail
      (.assign 160 _ hassign)⟩
  have hother : ∀ x, x ≠ 160 →
      (h₃.mem.set 160 (.object (ephemeronObj (.ptr 96) (.ptr 128)))) x = h₃.mem x :=
    fun x hx => Mem.set_of_ne hx _ _
  exact ⟨_, hreach, (hother 96 (by decide)).trans hkey, (hother 128 (by decide)).trans hvalue,
    Mem.set_self h₃.mem 160 _⟩

/-- The three objects refer to nothing else, so those in use are the roots. -/
private theorem live_ephemeron {mem : Mem}
    (hkey : mem 96 = .object (Shape.object weakTypes ⟨6, 0, 0, 0⟩))
    (hvalue : mem 128 = .object (Shape.object weakTypes ⟨6, 0, 0, 0⟩))
    (heph : mem 160 = .object (ephemeronObj (.ptr 96) (.ptr 128)))
    (hroots : ∀ a, .ptr a ∈ roots → a = 160 ∨ a = 96 ∨ a = 128) {a : ℕ}
    (hlive : Live weakTypes roots mem a) : .ptr a ∈ roots := by
  have hpair : (Shape.object weakTypes ⟨6, 0, 0, 0⟩).strongRefs weakTypes =
      [.imm 0, .imm 0, .imm 0] := rfl
  have hnone : (ephemeronObj (.ptr 96) (.ptr 128)).strongRefs weakTypes = [] := rfl
  obtain ⟨b, hb, hpath⟩ := hlive
  induction hpath with
  | refl => exact hb
  | tail _ hedge ih =>
    obtain ⟨o, ho, href⟩ := hedge
    rcases hroots _ ih with rfl | rfl | rfl
    · obtain rfl := Cell.object.inj (heph.symm.trans ho)
      rw [hnone] at href
      cases href
    · obtain rfl := Cell.object.inj (hkey.symm.trans ho)
      rw [hpair] at href
      simp at href
    · obtain rfl := Cell.object.inj (hvalue.symm.trans ho)
      rw [hpair] at href
      simp at href

/-- The value of an ephemeron is freed while its key is in use. -/
theorem sexpGc_frees_value :
    ¬ ∀ h, Reachable weakTypes h → ∀ roots : List Ref, (∀ x ∈ roots, x.Valid h.mem) →
      ∃ h' maxFreed sumFreed, sexpGc weakTypes roots h = some (h', maxFreed, sumFreed) ∧
        NoDangling weakTypes h'.mem := by
  intro hall
  obtain ⟨h, hreach, hkey, hvalue, heph⟩ := exists_ephemeron
  have hok := hreach.ok weakTypes_sizeBase
  have hroots : ∀ x ∈ [Ref.ptr 160, .ptr 96], x.Valid h.mem := by
    intro x hx a ha
    simp only [List.mem_cons, List.not_mem_nil, or_false] at hx
    rcases hx with rfl | rfl
    · obtain rfl := Ref.ptr.inj ha
      exact ⟨_, heph⟩
    · obtain rfl := Ref.ptr.inj ha
      exact ⟨_, hkey⟩
  obtain ⟨h', m, s, hrun, hnone⟩ := hall h hreach _ hroots
  obtain ⟨h'', m', s', hrun', -, hcollected⟩ := sexpGc_spec hok hroots
  obtain ⟨rfl, -⟩ := Prod.mk.inj (Option.some.inj (hrun.symm.trans hrun'))
  have hvalues := (hcollected.noDangling_iff hok hroots).mp hnone
  have hlive : ∀ a ∈ [160, 96], Live weakTypes [.ptr 160, .ptr 96] h.mem a := by
    intro a ha
    simp only [List.mem_cons, List.not_mem_nil, or_false] at ha
    rcases ha with rfl | rfl
    · exact ⟨160, by simp, .refl⟩
    · exact ⟨96, by simp, .refl⟩
  have halive := hvalues 160 _ heph (hlive 160 (by simp)) (by decide) ⟨0, by decide, fun a ha => by
    obtain rfl : 96 = a := Ref.ptr.inj ha
    exact hlive 96 (by simp)⟩ 0 (by decide) 128 rfl
  have hroot := live_ephemeron hkey hvalue heph (by simp) halive
  simp at hroot

/-- With the value in use too, nothing dangles under the ephemeron. -/
theorem sexpGc_noDangling_ephemeron :
    ∃ h, Reachable weakTypes h ∧ h.mem 160 = .object (ephemeronObj (.ptr 96) (.ptr 128)) ∧
      ∃ h' maxFreed sumFreed, sexpGc weakTypes [.ptr 160, .ptr 96, .ptr 128] h =
        some (h', maxFreed, sumFreed) ∧ NoDangling weakTypes h'.mem := by
  obtain ⟨h, hreach, hkey, hvalue, heph⟩ := exists_ephemeron
  have hroots : ∀ x ∈ [Ref.ptr 160, .ptr 96, .ptr 128], x.Valid h.mem := by
    intro x hx a ha
    simp only [List.mem_cons, List.not_mem_nil, or_false] at hx
    rcases hx with rfl | rfl | rfl
    · obtain rfl := Ref.ptr.inj ha
      exact ⟨_, heph⟩
    · obtain rfl := Ref.ptr.inj ha
      exact ⟨_, hkey⟩
    · obtain rfl := Ref.ptr.inj ha
      exact ⟨_, hvalue⟩
  obtain ⟨h', m, s, hrun, hiff⟩ :=
    sexpGc_noDangling_iff weakTypes h (hreach.ok weakTypes_sizeBase) _ hroots
  refine ⟨h, hreach, heph, h', m, s, hrun, hiff.mpr ?_⟩
  intro a o ho hlive hbase _ i hi
  have hroot := live_ephemeron hkey hvalue heph (by simp) hlive
  simp only [List.mem_cons, List.not_mem_nil, or_false, Ref.ptr.injEq] at hroot
  rcases hroot with rfl | rfl | rfl
  · obtain rfl := Cell.object.inj (heph.symm.trans ho)
    obtain rfl : i = 0 := Nat.lt_one_iff.mp hi
    intro b hb
    obtain rfl : 128 = b := Ref.ptr.inj hb
    exact ⟨128, by simp, .refl⟩
  · obtain rfl := Cell.object.inj (hkey.symm.trans ho)
    exact absurd hbase (by decide)
  · obtain rfl := Cell.object.inj (hvalue.symm.trans ho)
    exact absurd hbase (by decide)

end ChibiScheme.Gc
