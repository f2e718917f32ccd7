import ChibiScheme.Text.Huffman

/-!
# Interning

`sexp_intern` packs a short symbol into a word and looks any other up in a hash table
with chained buckets.

The table is searched by length and `strncmp`, which stops at a zero byte.  Two
strings of one bucket that have the same length and agree up to a zero byte are one
symbol for it (`Confusable`); that is the only way in which interning goes wrong.
-/

namespace ChibiScheme

open List

/-! ## The code -/

/-- A C `char` as `acc ^= *str++` takes it: sign extended to the word. -/
def charWord (byte : UInt8) : UInt64 :=
  if byte.toNat < 128 then .ofNat byte.toNat else .ofNat (2 ^ 64 - 256 + byte.toNat)

/-- `sexp_string_hash` -/
def sexpStringHash : List UInt8 → UInt64 → UInt64
  | [], acc => acc
  | byte :: rest, acc => sexpStringHash rest ((acc * 16777619) ^^^ charWord byte)

/-- `SEXP_SYMBOL_TABLE_SIZE` -/
def sexpSymbolTableSize : ℕ := 389

/-- Where `sexp_intern` finds a string: in the word itself, or in a bucket. -/
inductive Spot where
  | immediate (word : ℕ)
  | bucket (index : ℕ)
deriving DecidableEq

/-- The first tests of `sexp_intern`: no symbol that starts like a number is packed. -/
def startsLikeNumber (str : List UInt8) : Bool :=
  match str with
  | [] => true
  | c :: rest =>
    (48 ≤ c.toNat && c.toNat ≤ 57) ||
      ((c.toNat == '+'.toNat || c.toNat == '-'.toNat) && !rest.isEmpty)

/-- The first part of `sexp_intern`.  The bucket is that of the bytes that are left
where packing stopped, hashed on top of what was packed. -/
def internSpot (str : List UInt8) : Spot :=
  if startsLikeNumber str then .bucket ((sexpStringHash str 0).toNat % sexpSymbolTableSize)
  else
    match packLoop str sexpImmediateBits 0 with
    | .immediate word => .immediate word
    | .normal rest res =>
      .bucket ((sexpStringHash rest (.ofNat res)).toNat % sexpSymbolTableSize)

/-- `strncmp(a, b, n) == 0`; a zero byte follows both. -/
def strncmpEq : List UInt8 → List UInt8 → ℕ → Bool
  | _, _, 0 => true
  | a, b, n + 1 =>
    if a.headD 0 ≠ b.headD 0 then false
    else if a.headD 0 = 0 then true
    else strncmpEq a.tail b.tail n

/-- A symbol: a packed word, or the address of a symbol object. -/
inductive Sym where
  | immediate (word : ℕ)
  | heap (addr : ℕ)
deriving DecidableEq

/-- The symbol objects by address, and the buckets, the newest symbol first. -/
structure SymTable where
  names : List (List UInt8)
  buckets : ℕ → List ℕ

/-- No symbol has been interned. -/
def SymTable.empty : SymTable := ⟨[], fun _ => []⟩

/-- The name of a symbol on the heap. -/
def SymTable.name (table : SymTable) (addr : ℕ) : List UInt8 := table.names.getD addr []

/-- The test a bucket is searched with. -/
def SymTable.isNamed (table : SymTable) (str : List UInt8) (addr : ℕ) : Bool :=
  (table.name addr).length == str.length && strncmpEq str (table.name addr) str.length

/-- `sexp_intern` -/
def sexpIntern (table : SymTable) (str : List UInt8) : Sym × SymTable :=
  match internSpot str with
  | .immediate word => (.immediate word, table)
  | .bucket index =>
    match (table.buckets index).find? (table.isNamed str) with
    | some addr => (.heap addr, table)
    | none =>
      (.heap table.names.length,
        { names := table.names ++ [str]
          buckets := Function.update table.buckets index
            (table.names.length :: table.buckets index) })

/-- `sexp_symbol_to_string` -/
def sexpSymbolToString (table : SymTable) : Sym → List UInt8
  | .immediate word => unpack word
  | .heap addr => table.name addr

/-- Intern strings one after the other; each with the symbol it was given. -/
def internAll : SymTable → List (List UInt8) → List (List UInt8 × Sym) × SymTable
  | table, [] => ([], table)
  | table, str :: rest =>
    let (sym, table) := sexpIntern table str
    let (pairs, table) := internAll table rest
    ((str, sym) :: pairs, table)

/-! ## What the search compares -/

/-- The bytes in front of the first NUL. -/
def cPrefix (str : List UInt8) : List UInt8 := str.takeWhile (· ≠ 0)

theorem strncmpEq_iff {a b : List UInt8} {n : ℕ} (ha : a.length ≤ n) (hb : b.length ≤ n) :
    strncmpEq a b n = true ↔ cPrefix a = cPrefix b := by
  induction n generalizing a b with
  | zero =>
    obtain rfl := length_eq_zero_iff.mp (Nat.le_zero.mp ha)
    obtain rfl := length_eq_zero_iff.mp (Nat.le_zero.mp hb)
    simp [strncmpEq]
  | succ n ih =>
    have hstep := @ih a.tail b.tail (by rw [length_tail]; omega) (by rw [length_tail]; omega)
    cases a with
    | nil =>
      cases b with
      | nil => simp [strncmpEq]
      | cons y b =>
        by_cases hy : y = 0
        · simp [strncmpEq, cPrefix, hy]
        · simp [strncmpEq, cPrefix, hy, Ne.symm hy]
    | cons x a =>
      cases b with
      | nil =>
        by_cases hx : x = 0
        · simp [strncmpEq, cPrefix, hx]
        · simp [strncmpEq, cPrefix, hx]
      | cons y b =>
        by_cases hxy : x = y
        · subst hxy
          by_cases hx : x = 0
          · simp [strncmpEq, cPrefix, hx]
          · simpa [strncmpEq, cPrefix, hx] using hstep
        · by_cases hx : x = 0
          · subst hx
            simp [strncmpEq, cPrefix, hxy, Ne.symm hxy]
          · by_cases hy : y = 0
            · simp [strncmpEq, cPrefix, hx, hy]
            · simp [strncmpEq, cPrefix, hxy, hx, hy]

/-- Strings that the search of a bucket takes for one another. -/
def SameName (s t : List UInt8) : Prop := s.length = t.length ∧ cPrefix s = cPrefix t

theorem isNamed_iff {table : SymTable} {str : List UInt8} {addr : ℕ} :
    table.isNamed str addr = true ↔ SameName (table.name addr) str := by
  simp only [SymTable.isNamed, Bool.and_eq_true, beq_iff_eq, SameName]
  constructor
  · rintro ⟨hlength, hcompare⟩
    exact ⟨hlength, ((strncmpEq_iff le_rfl hlength.le).mp hcompare).symm⟩
  · rintro ⟨hlength, hname⟩
    exact ⟨hlength, (strncmpEq_iff le_rfl hlength.le).mpr hname.symm⟩

/-- Two strings that interning takes for one symbol: they are not packed, have the same
bucket and length and agree up to a zero byte. -/
def Confusable (s t : List UInt8) : Prop :=
  (∃ index, internSpot s = .bucket index ∧ internSpot t = .bucket index) ∧ SameName s t

/-! ## The table -/

/-- A symbol stands in the bucket of its name, and a bucket has one symbol for a
name. -/
structure SymTable.Valid (table : SymTable) : Prop where
  sound : ∀ index addr, addr ∈ table.buckets index →
    addr < table.names.length ∧ internSpot (table.name addr) = .bucket index
  unique : ∀ index addr addr', addr ∈ table.buckets index → addr' ∈ table.buckets index →
    SameName (table.name addr) (table.name addr') → addr = addr'

/-- Symbols are added, none is changed. -/
structure SymTable.Grows (table table' : SymTable) : Prop where
  length : table.names.length ≤ table'.names.length
  name : ∀ addr < table.names.length, table'.name addr = table.name addr
  buckets : ∀ index addr, addr ∈ table.buckets index → addr ∈ table'.buckets index

/-- `sym` is the symbol the table has for `str`. -/
def Interned (table : SymTable) (str : List UInt8) (sym : Sym) : Prop :=
  match internSpot str with
  | .immediate word => sym = .immediate word
  | .bucket index =>
    ∃ addr ∈ table.buckets index, sym = .heap addr ∧ SameName (table.name addr) str

variable {table table' : SymTable} {str s t : List UInt8} {sym : Sym}

theorem SymTable.Grows.refl (table : SymTable) : table.Grows table :=
  ⟨le_rfl, fun _ _ => rfl, fun _ _ hmem => hmem⟩

theorem SymTable.Grows.trans {table₃ : SymTable} (h12 : table.Grows table')
    (h23 : table'.Grows table₃) : table.Grows table₃ where
  length := h12.length.trans h23.length
  name addr haddr := (h23.name addr (haddr.trans_le h12.length)).trans (h12.name addr haddr)
  buckets index addr hmem := h23.buckets index addr (h12.buckets index addr hmem)

theorem Interned.of_grows (hvalid : table.Valid) (hgrows : table.Grows table')
    (hinterned : Interned table str sym) : Interned table' str sym := by
  unfold Interned at hinterned ⊢
  split
  · rename_i word hspot
    rw [hspot] at hinterned
    exact hinterned
  · rename_i index hspot
    rw [hspot] at hinterned
    obtain ⟨addr, hmem, hsym, hname⟩ := hinterned
    refine ⟨addr, hgrows.buckets index addr hmem, hsym, ?_⟩
    rw [hgrows.name addr (hvalid.sound index addr hmem).1]
    exact hname

private theorem add_spec {index : ℕ} (hvalid : table.Valid) (hspot : internSpot str = .bucket index)
    (hnew : ∀ addr ∈ table.buckets index, ¬ SameName (table.name addr) str) :
    let table' : SymTable :=
      { names := table.names ++ [str]
        buckets := Function.update table.buckets index
          (table.names.length :: table.buckets index) }
    table'.Valid ∧ table.Grows table' ∧ Interned table' str (.heap table.names.length) := by
  intro table'
  have hold : ∀ addr < table.names.length, table'.name addr = table.name addr := by
    intro addr haddr
    simp [table', SymTable.name, getElem?_append_left haddr]
  have hlast : table'.name table.names.length = str := by simp [table', SymTable.name]
  have hmem : ∀ {i addr : ℕ}, addr ∈ table'.buckets i ↔
      (i = index ∧ addr = table.names.length) ∨ addr ∈ table.buckets i := by
    intro i addr
    by_cases hi : i = index
    · subst hi
      simp [table']
    · simp [table', hi]
  have hlength : table'.names.length = table.names.length + 1 := by simp [table']
  have hgrows : table.Grows table' :=
    ⟨by omega, hold, fun i addr hin => hmem.mpr (.inr hin)⟩
  refine ⟨⟨?_, ?_⟩, hgrows, ?_⟩
  · intro i addr hin
    rcases hmem.mp hin with ⟨rfl, rfl⟩ | hin
    · exact ⟨by omega, by rw [hlast, hspot]⟩
    · obtain ⟨hlt, hsound⟩ := hvalid.sound i addr hin
      exact ⟨by omega, by rw [hold addr hlt, hsound]⟩
  · intro i addr addr' hin hin' hname
    rcases hmem.mp hin with ⟨rfl, rfl⟩ | hin₁
    · rcases hmem.mp hin' with ⟨-, rfl⟩ | hin₂
      · rfl
      · rw [hlast, hold addr' (hvalid.sound i addr' hin₂).1] at hname
        exact absurd ⟨hname.1.symm, hname.2.symm⟩ (hnew addr' hin₂)
    · have hlt := (hvalid.sound i addr hin₁).1
      rcases hmem.mp hin' with ⟨rfl, rfl⟩ | hin₂
      · rw [hlast, hold addr hlt] at hname
        exact absurd hname (hnew addr hin₁)
      · rw [hold addr hlt, hold addr' (hvalid.sound i addr' hin₂).1] at hname
        exact hvalid.unique i addr addr' hin₁ hin₂ hname
  · unfold Interned
    rw [hspot]
    exact ⟨_, hmem.mpr (.inl ⟨rfl, rfl⟩), rfl, by rw [hlast]; exact ⟨rfl, rfl⟩⟩

/-- Interning keeps the table valid and what is in it. -/
theorem sexpIntern_spec (hvalid : table.Valid) (str : List UInt8) :
    (sexpIntern table str).2.Valid ∧ table.Grows (sexpIntern table str).2 ∧
      Interned (sexpIntern table str).2 str (sexpIntern table str).1 := by
  cases hspot : internSpot str with
  | immediate word =>
    have hrun : sexpIntern table str = (.immediate word, table) := by
      simp only [sexpIntern, hspot]
    rw [hrun]
    refine ⟨hvalid, SymTable.Grows.refl table, ?_⟩
    simp only [Interned, hspot]
  | bucket index =>
    cases hfind : (table.buckets index).find? (table.isNamed str) with
    | some addr =>
      have hrun : sexpIntern table str = (.heap addr, table) := by
        simp only [sexpIntern, hspot, hfind]
      rw [hrun]
      refine ⟨hvalid, SymTable.Grows.refl table, ?_⟩
      simp only [Interned, hspot]
      exact ⟨addr, mem_of_find?_eq_some hfind, rfl,
        isNamed_iff.mp (find?_some hfind)⟩
    | none =>
      rw [show sexpIntern table str = (.heap table.names.length,
        { names := table.names ++ [str]
          buckets := Function.update table.buckets index
            (table.names.length :: table.buckets index) }) by
        simp only [sexpIntern, hspot, hfind]]
      refine add_spec hvalid hspot ?_
      intro addr hmem hname
      exact absurd (isNamed_iff.mpr hname) (by simpa using find?_eq_none.mp hfind addr hmem)

/-- So does a run. -/
theorem internAll_spec (hvalid : table.Valid) (strs : List (List UInt8)) :
    (internAll table strs).2.Valid ∧ table.Grows (internAll table strs).2 ∧
      (internAll table strs).1.map Prod.fst = strs ∧
      ∀ pair ∈ (internAll table strs).1, Interned (internAll table strs).2 pair.1 pair.2 := by
  induction strs generalizing table with
  | nil => exact ⟨hvalid, SymTable.Grows.refl table, rfl, by simp [internAll]⟩
  | cons str strs ih =>
    obtain ⟨hvalid₁, hgrows₁, hinterned⟩ := sexpIntern_spec hvalid str
    obtain ⟨hvalid₂, hgrows₂, hnames, hall⟩ := ih hvalid₁
    refine ⟨hvalid₂, hgrows₁.trans hgrows₂, congrArg (str :: ·) hnames, ?_⟩
    intro pair hpair
    rcases mem_cons.mp hpair with rfl | hpair
    · exact hinterned.of_grows hvalid₁ hgrows₂
    · exact hall pair hpair

theorem names_internAll (table : SymTable) (strs : List (List UInt8)) :
    ∀ name ∈ (internAll table strs).2.names, name ∈ table.names ∨ name ∈ strs := by
  induction strs generalizing table with
  | nil => exact fun name hname => .inl hname
  | cons str strs ih =>
    intro name hname
    rcases ih (sexpIntern table str).2 name hname with hold | hlater
    · unfold sexpIntern at hold
      split at hold
      · exact .inl hold
      · split at hold
        · exact .inl hold
        · rcases mem_append.mp hold with hold | hnew
          · exact .inl hold
          · exact .inr (mem_cons.mpr (.inl (mem_singleton.mp hnew)))
    · exact .inr (mem_cons.mpr (.inr hlater))

theorem SymTable.valid_empty : SymTable.empty.Valid :=
  ⟨by simp [SymTable.empty], by simp [SymTable.empty]⟩

/-! ## Interning is faithful -/

theorem eq_of_immediate {word : ℕ} (hs : internSpot s = .immediate word) : unpack word = s := by
  unfold internSpot at hs
  split at hs
  · simp at hs
  · split at hs
    · rename_i word' hpacked
      obtain rfl := Spot.immediate.inj hs
      exact unpack_packLoop hpacked
    · simp at hs

theorem interned_eq_iff (hvalid : table.Valid) {sym sym' : Sym} (hs : Interned table s sym)
    (ht : Interned table t sym') : sym = sym' ↔ s = t ∨ Confusable s t := by
  unfold Interned at hs ht
  cases hspot : internSpot s with
  | immediate word =>
    rw [hspot] at hs
    have hleft := eq_of_immediate hspot
    have hnot : ¬ Confusable s t := by
      rintro ⟨⟨index, hindex, -⟩, -⟩
      simp [hspot] at hindex
    rw [or_iff_left hnot]
    cases hspot' : internSpot t with
    | immediate word' =>
      rw [hspot'] at ht
      have hright := eq_of_immediate hspot'
      subst hs ht
      constructor
      · intro heq
        rw [← hleft, ← hright, Sym.immediate.inj heq]
      · rintro rfl
        rw [Spot.immediate.inj (hspot.symm.trans hspot')]
    | bucket index =>
      rw [hspot'] at ht
      obtain ⟨addr, -, rfl, -⟩ := ht
      subst hs
      refine iff_of_false (by simp) ?_
      rintro rfl
      simp [hspot] at hspot'
  | bucket index =>
    rw [hspot] at hs
    obtain ⟨addr, hmem, rfl, hname⟩ := hs
    cases hspot' : internSpot t with
    | immediate word' =>
      rw [hspot'] at ht
      subst ht
      refine iff_of_false (by simp) ?_
      rintro (rfl | ⟨⟨index', -, hindex⟩, -⟩)
      · simp [hspot] at hspot'
      · simp [hspot'] at hindex
    | bucket index' =>
      rw [hspot'] at ht
      obtain ⟨addr', hmem', rfl, hname'⟩ := ht
      constructor
      · intro heq
        obtain rfl := Sym.heap.inj heq
        have hindex := (hvalid.sound index addr hmem).2.symm.trans (hvalid.sound index' addr hmem').2
        obtain rfl := Spot.bucket.inj hindex
        exact .inr ⟨⟨index, hspot, hspot'⟩, hname.1.symm.trans hname'.1,
          hname.2.symm.trans hname'.2⟩
      · intro heq
        obtain ⟨rfl, hsame⟩ : index = index' ∧ SameName s t := by
          rcases heq with rfl | ⟨⟨i, hi, hi'⟩, hsame⟩
          · exact ⟨Spot.bucket.inj (hspot.symm.trans hspot'), rfl, rfl⟩
          · exact ⟨(Spot.bucket.inj (hspot.symm.trans hi)).trans
              (Spot.bucket.inj (hspot'.symm.trans hi')).symm, hsame⟩
        rw [hvalid.unique index addr addr' hmem hmem' ⟨(hname.1.trans hsame.1).trans hname'.1.symm,
          (hname.2.trans hsame.2).trans hname'.2.symm⟩]

/-- The symbols that a run of interns hands out: the same for the same strings, and
with the string as name. -/
def Faithful (strs : List (List UInt8)) : Prop :=
  (∀ pair ∈ (internAll .empty strs).1, ∀ pair' ∈ (internAll .empty strs).1,
    pair.2 = pair'.2 ↔ pair.1 = pair'.1) ∧
  ∀ pair ∈ (internAll .empty strs).1,
    sexpSymbolToString (internAll .empty strs).2 pair.2 = pair.1

/-- Interning is faithful on exactly the runs in which no two strings are confused. -/
theorem intern_faithful_iff (strs : List (List UInt8)) :
    Faithful strs ↔ ∀ s ∈ strs, ∀ t ∈ strs, Confusable s t → s = t := by
  obtain ⟨hvalid, -, hnames, hall⟩ := internAll_spec SymTable.valid_empty strs
  have hmem : ∀ {s : List UInt8}, s ∈ strs ↔ ∃ pair ∈ (internAll .empty strs).1, pair.1 = s := by
    intro s
    conv_lhs => rw [← hnames, mem_map]
  constructor
  · rintro ⟨hsame, -⟩ s hs t ht hconfusable
    obtain ⟨pair, hpair, rfl⟩ := hmem.mp hs
    obtain ⟨pair', hpair', rfl⟩ := hmem.mp ht
    apply (hsame pair hpair pair' hpair').mp
    exact (interned_eq_iff hvalid (hall pair hpair) (hall pair' hpair')).mpr (.inr hconfusable)
  · intro hclear
    constructor
    · intro pair hpair pair' hpair'
      rw [interned_eq_iff hvalid (hall pair hpair) (hall pair' hpair')]
      refine or_iff_left_of_imp ?_
      exact hclear _ (hmem.mpr ⟨pair, hpair, rfl⟩) _ (hmem.mpr ⟨pair', hpair', rfl⟩)
    · intro pair hpair
      have hinterned := hall pair hpair
      unfold Interned at hinterned
      -- an immediate symbol is its own name; the others are looked up in their bucket
      cases hspot : internSpot pair.1 with
      | immediate word =>
        rw [hspot] at hinterned
        rw [hinterned]
        exact eq_of_immediate hspot
      | bucket index =>
        rw [hspot] at hinterned
        obtain ⟨addr, hin, hsym, hname⟩ := hinterned
        obtain ⟨hlt, hsound⟩ := hvalid.sound index addr hin
        rw [hsym]
        show (internAll .empty strs).2.name addr = pair.1
        have hinterned : (internAll .empty strs).2.name addr ∈ strs := by
          have hlist : (internAll .empty strs).2.name addr ∈ (internAll .empty strs).2.names := by
            rw [SymTable.name, getD_eq_getElem _ _ hlt]
            exact getElem_mem hlt
          exact (names_internAll .empty strs _ hlist).resolve_left (by simp [SymTable.empty])
        exact hclear _ hinterned _ (hmem.mpr ⟨pair, hpair, rfl⟩) ⟨⟨index, hsound, hspot⟩, hname⟩

/-- The strings `a`, zero, `bb` and `a`, zero, `@T` are given one symbol. -/
theorem intern_nul_confuses :
    (internAll .empty [[97, 0, 98, 98], [97, 0, 64, 84]]).1 =
      [([97, 0, 98, 98], .heap 0), ([97, 0, 64, 84], .heap 0)] ∧
    ¬ Faithful [[97, 0, 98, 98], [97, 0, 64, 84]] := by
  have hrun : (internAll .empty [[97, 0, 98, 98], [97, 0, 64, 84]]).1 =
      [([97, 0, 98, 98], .heap 0), ([97, 0, 64, 84], .heap 0)] := by decide +kernel
  refine ⟨hrun, ?_⟩
  rintro ⟨hsame, -⟩
  rw [hrun] at hsame
  have hequal := (hsame ([97, 0, 98, 98], .heap 0) (by simp) ([97, 0, 64, 84], .heap 0)
    (by simp)).mp rfl
  simp at hequal

end ChibiScheme
