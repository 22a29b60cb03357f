import FavoriteAssignments.Sorting.Counters
import FavoriteAssignments.Sorting.Shell

/-! # The sorting program

`set.c`, and `main` of `sorting.c` from its options to what it prints. -/

namespace FavoriteAssignments.Sorting

open Loops Rearrangement Strides BinaryHeap

/-! ## Sets -/

/-- `1 << (x % 8)`. -/
def element (x : UInt8) : UInt32 := 1 <<< (x % 8).toUInt32

def set_empty : UInt32 := 0

def set_universal : UInt32 := 0xffffffff

def set_insert (s : UInt32) (x : UInt8) : UInt32 := s ||| element x

def set_remove (s : UInt32) (x : UInt8) : UInt32 := s &&& ~~~ element x

def set_member (s : UInt32) (x : UInt8) : Bool := s &&& element x ≠ 0

def set_union (s t : UInt32) : UInt32 := s ||| t

def set_intersect (s t : UInt32) : UInt32 := s &&& t

def set_difference (s t : UInt32) : UInt32 := s &&& ~~~ t

def set_complement (s : UInt32) : UInt32 := ~~~ s

/-! ## Printing -/

/-- `%13u`. -/
def padded (x : UInt32) : String :=
  let digits := toString x.toNat
  "".pushn ' ' (13 - digits.length) ++ digits

def print_array (array : ℕ → UInt32) (max_print : ℕ) : String :=
  String.join ((List.range max_print).map fun i =>
    padded (array i) ++ if i % 5 = 4 then "\n" else "")

def size : UInt32 := 100

def elements : UInt32 := 100

def maxp : ℕ := if elements ≤ size then elements.toNat else size.toNat

/-- The line above an array. -/
def title (name : String) (stats : Stats) : String :=
  name ++ " Sort, " ++ toString size.toNat ++ " elements, " ++ toString stats.moves.toNat ++
    " moves, " ++ toString stats.compares.toNat ++ " compares\n"

def help : String :=
  "SYNOPSIS\n" ++ "   A collection of comparison-based sorting algorithms.\n" ++ "USAGE\n" ++
  "./sorting [-Hasbhqn:p:r:] [-n length] [-p elements] [-r seed]\n\n" ++ "OPTIONS\n" ++
  "   -H              Display program help and usage.\n" ++
  "   -a              Enable all sorts.\n" ++ "   -s              Enable Shell Sort.\n" ++
  "   -b              Enable Batcher Sort.\n" ++ "   -h              Enable Heap Sort.\n" ++
  "   -q              Enable Quick Sort.\n" ++
  "   -n length       Specify number of array elements.\n" ++
  "   -p elements     Specify number of elements to print.\n" ++
  "   -r seed         Specify random seed (default: 13371453).\n"

/-! ## Options -/

/-- What `getopt` returns. No letter of `OPTIONS` takes an argument, so that `optarg` is a
null pointer for `n` and `p`. -/
inductive Opt where
  | a | s | b | q | h | r | n | p | H | unknown
  deriving DecidableEq

/-- The set of sorts, how often `rand` has been called, and what has been printed. -/
structure Settings where
  op : UInt32
  drawn : ℕ
  out : String

/-- The loop over the options, and whether it is left by `return -1`; no result where a null
pointer is read. `seed` is not used. -/
def getopts : List Opt → Settings → Option (Bool × Settings)
  | [], st => some (false, st)
  | .a :: opts, st => getopts opts { st with op := set_union st.op 0xF }
  | .s :: opts, st => getopts opts { st with op := set_insert st.op 0 }
  | .b :: opts, st => getopts opts { st with op := set_insert st.op 1 }
  | .q :: opts, st => getopts opts { st with op := set_insert st.op 2 }
  | .h :: opts, st => getopts opts { st with op := set_insert st.op 3 }
  | .r :: opts, st => getopts opts { st with drawn := st.drawn + 1 }
  | .n :: _, _ => none
  | .p :: _, _ => none
  | .H :: opts, st => getopts opts { st with out := st.out ++ help }
  | .unknown :: _, st => some (true, st)

/-! ## `main` -/

/-- The values in `empty_array`, drawn with the calls of `rand` from `drawn` on. -/
def numbers (rand : ℕ → ℕ) (drawn : ℕ) : List UInt32 :=
  (List.range size.toNat).map fun i => UInt32.ofNat (rand (drawn + i) &&& 0x3fffffff)

def reset : Stats := ⟨0, 0⟩

/-- `calloc` and `memcpy`. -/
def copy (stats : Stats) (empty_array : List UInt32) : State :=
  { ofList empty_array with stats := stats }

/-- `stats`, and what has been printed. -/
structure Printed where
  stats : Stats
  out : String

/-- Sorts a copy of the array, and prints the counters and the copy. -/
def report (name : String) (sort : State → UInt32 → Option State) (empty_array : List UInt32)
    (pr : Printed) : Option Printed := do
  let s ← sort (copy pr.stats empty_array) size
  return ⟨s.stats, pr.out ++ title name s.stats ++ print_array s.A maxp⟩

/-- The body of the loop over the sorts. Heap sort goes on with the counters of the sort
before it. -/
def runSort (fuel : ℕ) (empty_array : List UInt32) (pr : Printed) : ℕ → Option Printed
  | 0 => report "Shell" (Shell.shell_sort fuel) empty_array { pr with stats := reset }
  | 1 => report "Batcher" (Batcher.batcher_sort fuel) empty_array { pr with stats := reset }
  | 2 => report "Quick" (Quick.quick_sort fuel) empty_array { pr with stats := reset }
  | 3 => report "Heap" (Heap.heap_sort fuel) empty_array
      { pr with out := pr.out ++ "Running heap sort\n" }
  | _ => some pr

/-- What the program returns and prints. `stats` are the values that the counters happen to
have. -/
def main (fuel : ℕ) (rand : ℕ → ℕ) (stats : Stats) (opts : List Opt) : Option (ℤ × String) := do
  let (left, st) ← getopts opts ⟨set_empty, 0, ""⟩
  if left then return (-1, st.out)
  else
    let empty_array := numbers rand st.drawn
    let pr ← (List.range 4).foldlM (fun pr i =>
      if set_member st.op (UInt8.ofNat i) then runSort fuel empty_array pr i else some pr)
      (⟨stats, st.out⟩ : Printed)
    return (0, pr.out)

/-! ## Sets as sets of bits -/

theorem toNat_element (x : UInt8) : (element x).toNat = 2 ^ (x.toNat % 8) := by
  have hlt : x.toNat % 8 < 8 := Nat.mod_lt _ (by decide)
  rw [element, UInt32.toNat_shiftLeft, UInt8.toNat_toUInt32, UInt8.toNat_mod]
  rw [show (8 : UInt8).toNat = 8 from rfl, Nat.mod_eq_of_lt (show x.toNat % 8 < 32 by omega)]
  rw [show (1 : UInt32).toNat = 1 from rfl, Nat.one_shiftLeft]
  exact Nat.mod_eq_of_lt (Nat.pow_lt_pow_right (by decide) (show x.toNat % 8 < 32 by omega))

/-- A set holds the bits `0` to `7`. -/
theorem set_member_eq (s : UInt32) (x : UInt8) :
    set_member s x = s.toNat.testBit (x.toNat % 8) := by
  rw [set_member, Bool.eq_iff_iff, decide_eq_true_iff, ne_eq, ← UInt32.toNat_inj,
    UInt32.toNat_and, toNat_element, UInt32.toNat_zero, Nat.and_two_pow]
  have := Nat.two_pow_pos (x.toNat % 8)
  cases s.toNat.testBit (x.toNat % 8) <;> simp

theorem testBit_complement (s : UInt32) {k : ℕ} (hk : k < 32) :
    (~~~ s).toNat.testBit k = !s.toNat.testBit k := by
  rw [← UInt32.toNat_toBitVec, ← UInt32.toNat_toBitVec, ← BitVec.getLsbD, ← BitVec.getLsbD,
    UInt32.toBitVec_not, BitVec.getLsbD_not]
  simp [hk]

/-- The elements of a set, among `0` to `7`. -/
def members (s : UInt32) : Finset (Fin 8) := Finset.univ.filter fun k => s.toNat.testBit k

/-- An element is taken modulo 8. -/
def place (x : UInt8) : Fin 8 := ⟨x.toNat % 8, Nat.mod_lt _ (by decide)⟩

section Members

variable (s t : UInt32) (x : UInt8)

theorem mem_members (k : Fin 8) : k ∈ members s ↔ s.toNat.testBit k = true := by simp [members]

theorem set_member_iff : set_member s x = true ↔ place x ∈ members s := by
  rw [set_member_eq, mem_members, place]

theorem members_or : members (s ||| t) = members s ∪ members t := by
  ext k
  simp [mem_members]

theorem members_and : members (s &&& t) = members s ∩ members t := by
  ext k
  simp [mem_members]

theorem members_not : members (~~~ s) = (members s)ᶜ := by
  ext k
  rw [mem_members, testBit_complement s (show (k : ℕ) < 32 by omega), Finset.mem_compl, mem_members]
  simp

theorem members_element : members (element x) = {place x} := by
  ext k
  rw [mem_members, toNat_element, Nat.testBit_two_pow, decide_eq_true_iff, Finset.mem_singleton,
    place, Fin.ext_iff, eq_comm]

theorem members_empty : members set_empty = ∅ := by decide

theorem members_universal : members set_universal = Finset.univ := by decide

theorem members_insert : members (set_insert s x) = insert (place x) (members s) := by
  rw [set_insert, members_or, members_element, Finset.union_comm, Finset.insert_eq]

theorem members_remove : members (set_remove s x) = (members s).erase (place x) := by
  rw [set_remove, members_and, members_not, members_element, ← Finset.sdiff_eq_inter_compl,
    Finset.sdiff_singleton_eq_erase]

theorem members_union : members (set_union s t) = members s ∪ members t := members_or s t

theorem members_intersect : members (set_intersect s t) = members s ∩ members t :=
  members_and s t

theorem members_difference : members (set_difference s t) = members s \ members t := by
  rw [set_difference, members_and, members_not, Finset.sdiff_eq_inter_compl]

theorem members_complement : members (set_complement s) = (members s)ᶜ := members_not s

end Members

/-! ## The options -/

/-- The sorts that an option adds. -/
def Opt.sorts : Opt → Finset (Fin 8)
  | .a => {0, 1, 2, 3}
  | .s => {0}
  | .b => {1}
  | .q => {2}
  | .h => {3}
  | _ => ∅

/-- With these options the program reads no null pointer and does not leave early. -/
def Plain (opts : List Opt) : Prop := ∀ o ∈ opts, o ≠ .n ∧ o ≠ .p ∧ o ≠ .unknown

def helps (k : ℕ) : String := String.join (List.replicate k help)

/-- One turn of the loop over the options. -/
theorem getopts_cons {o : Opt} (h : o ≠ .n ∧ o ≠ .p ∧ o ≠ .unknown) (opts : List Opt)
    (st : Settings) : ∃ op, members op = members st.op ∪ o.sorts ∧
      getopts (o :: opts) st = getopts opts ⟨op, st.drawn + [o].count .r,
        st.out ++ helps ([o].count .H)⟩ := by
  have hnil : st.out ++ helps 0 = st.out := by simp [helps]
  have hone : helps 1 = help := by simp [helps]
  have hinsert : ∀ x, members (set_insert st.op x) = members st.op ∪ {place x} := by
    intro x
    rw [members_insert, Finset.insert_eq, Finset.union_comm]
  cases o with
  | n => exact absurd rfl h.1
  | p => exact absurd rfl h.2.1
  | unknown => exact absurd rfl h.2.2
  | a =>
      refine ⟨set_union st.op 0xF, ?_, by simp [getopts, hnil]⟩
      rw [members_union, show members 0xF = Opt.sorts .a by decide]
  | s => exact ⟨set_insert st.op 0, hinsert 0, by simp [getopts, hnil]⟩
  | b => exact ⟨set_insert st.op 1, hinsert 1, by simp [getopts, hnil]⟩
  | q => exact ⟨set_insert st.op 2, hinsert 2, by simp [getopts, hnil]⟩
  | h => exact ⟨set_insert st.op 3, hinsert 3, by simp [getopts, hnil]⟩
  | r => exact ⟨st.op, by simp [Opt.sorts], by simp [getopts, hnil]⟩
  | H => exact ⟨st.op, by simp [Opt.sorts], by simp [getopts, hone]⟩

theorem getopts_eq {opts : List Opt} (h : Plain opts) (st : Settings) :
    ∃ op, getopts opts st = some (false,
        ⟨op, st.drawn + opts.count .r, st.out ++ helps (opts.count .H)⟩) ∧
      ∀ k, k ∈ members op ↔ k ∈ members st.op ∨ ∃ o ∈ opts, k ∈ o.sorts := by
  induction opts generalizing st with
  | nil => exact ⟨st.op, by simp [getopts, helps], by simp⟩
  | cons o opts ih =>
      obtain ⟨ho, hopts⟩ := List.forall_mem_cons.mp h
      obtain ⟨op₁, hop₁, hstep⟩ := getopts_cons ho opts st
      obtain ⟨op, hrest, hmem⟩ := ih hopts ⟨op₁, st.drawn + [o].count .r,
        st.out ++ helps ([o].count .H)⟩
      have hhelps : ∀ j k, helps (j + k) = helps j ++ helps k := by
        intro j k
        rw [helps, helps, helps, ← String.join_append, List.replicate_append_replicate]
      have hcount : ∀ o', (o :: opts).count o' = [o].count o' + opts.count o' := by
        intro o'
        rw [← List.singleton_append, List.count_append]
      refine ⟨op, ?_, fun k => ?_⟩
      · rw [hstep, hrest, hcount, hcount, hhelps]
        simp only [String.append_assoc, Nat.add_assoc]
      · rw [hmem, hop₁]
        simp [or_assoc]

/-! ## The reports -/

/-- What is printed of a sort whose copy ends as `xs`. -/
def block (name : String) (stats : Stats) (xs : List UInt32) : String :=
  title name stats ++ print_array (fun i => xs.getD i 0) maxp

section Reports

variable {fuel : ℕ} {xs ys : List UInt32} {pr : Printed}

theorem contents_getD (xs : List UInt32) : contents xs.length (fun i => xs.getD i 0) = xs := by
  apply List.ext_getElem
  · simp [contents]
  · intro i hi hi'
    simp [contents, hi']

theorem print_array_congr {A B : ℕ → UInt32} {n : ℕ} (h : contents n A = contents n B) :
    print_array A n = print_array B n := by
  have hAB : ∀ i ∈ List.range n, A i = B i := List.map_inj_left.mp h
  rw [print_array, print_array, List.map_congr_left fun i hi => by rw [hAB i hi]]

theorem report_eq (name : String) {sort : State → UInt32 → Option State}
    (h : Yields (sort (copy pr.stats xs) size) fun s => contents size.toNat s.A = ys) :
    ∃ s, sort (copy pr.stats xs) size = some s ∧
      report name sort xs pr = some ⟨s.stats, pr.out ++ block name s.stats ys⟩ := by
  obtain ⟨s, hs, hcontents⟩ := h
  refine ⟨s, hs, ?_⟩
  have hlength : ys.length = maxp := by rw [← hcontents]; simp [contents]; rfl
  have hprint : print_array s.A maxp = print_array (fun i => ys.getD i 0) maxp := by
    refine print_array_congr ?_
    rw [← hlength, contents_getD, hlength]
    exact hcontents
  rw [report, hs]
  simp [block, hprint, String.append_assoc]

/-- A sorted permutation is what `mergeSort` gives. -/
theorem contents_eq_mergeSort {s : State} {stats : Stats} (hxs : xs.length = size.toNat)
    (hperm : (contents size.toNat s.A).Perm (contents size.toNat (copy stats xs).A))
    (hsorted : (contents size.toNat s.A).Pairwise (· ≤ ·)) :
    contents size.toNat s.A = xs.mergeSort := by
  have hcopy : contents size.toNat (copy stats xs).A = xs := by
    rw [← hxs]
    exact contents_getD xs
  rw [hcopy] at hperm
  exact (hperm.trans (List.mergeSort_perm xs _).symm).eq_of_pairwise' hsorted
    (List.pairwise_mergeSort' _ xs)

theorem shell_copy (stats : Stats) (hxs : xs.length = size.toNat) (hfuel : 101 < fuel) :
    Yields (Shell.shell_sort fuel (copy stats xs) size) fun s =>
      contents size.toNat s.A = xs.mergeSort := by
  have hlimit : size.toNat ≤ 1048576 := by decide
  refine (Shell.passes_yield (s := copy stats xs) Shell.gaps_covered hlimit hxs.ge
    (show 100 < fuel by omega) fun g hg => absurd hg List.not_mem_nil).mono fun s hs => ?_
  refine contents_eq_mergeSort hxs hs.1.perm ?_
  exact pairwise_contents_of_succ (hs.2 1 (Or.inr Shell.one_mem_gaps))

theorem batcher_copy (stats : Stats) (hxs : xs.length = size.toNat) (hfuel : 101 < fuel) :
    Yields (Batcher.batcher_sort fuel (copy stats xs) size) fun s =>
      contents size.toNat s.A = xs.mergeSort := by
  have hsorted : Yields (Batcher.batcher_sort fuel (copy stats xs) size) fun s =>
      Permutes size.toNat (copy stats xs) s ∧ StrideSorted size.toNat 1 s.A := by
    rw [Batcher.batcher_sort, if_neg (by decide)]
    apply (Batcher.bitCount_yields (n := size) (by decide) (show 100 < fuel by omega)).bind
    rintro t ⟨a, ht, hlow, hhigh⟩
    have ha : a < 31 :=
      (Nat.pow_lt_pow_iff_right (show 1 < 2 by decide)).mp (lt_of_le_of_lt hlow (by decide))
    apply (Batcher.oneShift_yields ht ha).bind
    intro p hp
    apply (Batcher.halving_yields hxs.ge ht ha hlow hhigh hp (show 100 + 1 < fuel by omega)).bind
    rintro ⟨s, p'⟩ h
    exact (yields_some s).mpr h
  refine hsorted.mono fun s hs => contents_eq_mergeSort hxs hs.1.perm ?_
  exact pairwise_contents_of_succ hs.2

theorem quick_copy (stats : Stats) (hxs : xs.length = size.toNat) (hfuel : 101 < fuel) :
    Yields (Quick.quick_sort fuel (copy stats xs) size) fun s =>
      contents size.toNat s.A = xs.mergeSort := by
  have hsorted : Yields (Quick.quick_sort fuel (copy stats xs) size) fun s =>
      Quick.Sorted (copy stats xs) s 0 size.toNat :=
    Quick.quick_sorter_yields le_rfl hxs.ge (by decide) (show 100 + 2 - 1 < fuel by omega)
  refine hsorted.mono fun s hs => contents_eq_mergeSort hxs
    (hs.rearranges.mono fun _ hi => hi.2).perm ?_
  rw [pairwise_contents_iff]
  intro i j hij hj
  exact hs.ordered i j (Nat.zero_le i) hij hj

/-- What heap sort makes of the numbers. -/
def heaped (xs : List UInt32) : List UInt32 :=
  contents size.toNat (extractFrom (buildFrom size.toNat (fun i => xs.getD i 0)
    ((size.toNat - 1) / 2)) size.toNat)

theorem heap_copy (stats : Stats) (hxs : xs.length = size.toNat) (hfuel : 101 < fuel) :
    Yields (Heap.heap_sort fuel (copy stats xs) size) fun s =>
      contents size.toNat s.A = heaped xs := by
  have hheap := Heap.heap_sort_yields (s := copy stats xs) (n := size) (by decide) (by decide)
    hxs.ge (show 100 < fuel by omega)
  refine hheap.mono fun s hs => ?_
  rw [hs.2]
  rfl

theorem heaped_perm (hxs : xs.length = size.toNat) : (heaped xs).Perm xs := by
  have hperm := ((rearranges_buildFrom size.toNat (fun i => xs.getD i 0)
    ((size.toNat - 1) / 2)).trans (rearranges_extractFrom _ _)).perm
  rwa [← hxs, contents_getD, hxs] at hperm

/-- The last number alone decides whether heap sort sorts: it does if that number is not
above its father, and does not if it is above all others. -/
theorem heaped_sorted (hxs : xs.length = size.toNat) :
    (xs.getD 99 0 ≤ xs.getD 49 0 → heaped xs = xs.mergeSort) ∧
      (heaped xs = xs.mergeSort → ∃ i < 99, xs.getD 99 0 ≤ xs.getD i 0) := by
  constructor
  · intro hle
    refine ((heaped_perm hxs).trans (List.mergeSort_perm xs _).symm).eq_of_pairwise' ?_
      (List.pairwise_mergeSort' _ xs)
    exact Heap.sorted_of_heapOn (by decide) (Heap.heapOn_built (.inr hle))
  · intro hsorted
    have hpairwise : (heaped xs).Pairwise (· ≤ ·) := by
      rw [hsorted]
      exact List.pairwise_mergeSort' _ xs
    exact Heap.le_others_of_sorted (by decide) (by decide) hpairwise

/-- What is printed with a sort is decided by the numbers, where the counters start anew. -/
theorem report_reset (name : String) {sort : State → UInt32 → Option State}
    (h : Yields (sort (copy reset xs) size) fun s => contents size.toNat s.A = ys) :
    ∃ stats, ∀ pr : Printed, report name sort xs { pr with stats := reset } =
      some ⟨stats, pr.out ++ block name stats ys⟩ := by
  obtain ⟨s, hs, hcontents⟩ := h
  refine ⟨s.stats, fun pr => ?_⟩
  have hyields : Yields (sort (copy { pr with stats := reset : Printed }.stats xs) size) fun s =>
      contents size.toNat s.A = ys := ⟨s, hs, hcontents⟩
  obtain ⟨s', hs', hreport⟩ := report_eq name hyields
  obtain rfl := Option.some.inj (hs.symm.trans hs')
  exact hreport

/-- Heap sort adds its comparisons to those that have been counted before. -/
theorem report_heap (hxs : xs.length = size.toNat) (hfuel : 101 < fuel) (pr : Printed) :
    ∃ stats : Stats, (∃ c ≤ 888, stats.compares = pr.stats.compares + UInt64.ofNat c) ∧
      runSort fuel xs pr 3 =
        some ⟨stats, pr.out ++ ("Running heap sort\n" ++ block "Heap" stats (heaped xs))⟩ := by
  have hyields : Yields (Heap.heap_sort fuel (copy
      { pr with out := pr.out ++ "Running heap sort\n" : Printed }.stats xs) size) fun s =>
        contents size.toNat s.A = heaped xs := heap_copy pr.stats hxs hfuel
  obtain ⟨s, hs, hreport⟩ := report_eq "Heap" hyields
  refine ⟨s.stats, ?_, by rw [runSort, hreport, String.append_assoc]⟩
  obtain ⟨c, hc, hspent⟩ := Heap.heap_sort_spent (n := size) (by decide) (by decide) s hs
  have hlog : Nat.log 2 size.toNat = 6 := by decide
  rw [hlog] at hc
  exact ⟨c, hc, hspent⟩

end Reports

/-! ## What the program prints -/

/-- A sort is chosen by its letter, or with all of them. -/
def Selected (opts : List Opt) (o : Opt) : Prop := .a ∈ opts ∨ o ∈ opts

instance (opts : List Opt) (o : Opt) : Decidable (Selected opts o) :=
  inferInstanceAs (Decidable (_ ∨ _))

/-- The reports of the first three sorts. -/
def early (opts : List Opt) (shell batcher quick : Stats) (xs : List UInt32) : String :=
  (if Selected opts .s then block "Shell" shell xs.mergeSort else "") ++
    ((if Selected opts .b then block "Batcher" batcher xs.mergeSort else "") ++
      if Selected opts .q then block "Quick" quick xs.mergeSort else "")

def late (opts : List Opt) (heap : Stats) (xs : List UInt32) : String :=
  if Selected opts .h then "Running heap sort\n" ++ block "Heap" heap (heaped xs) else ""

/-- The counters that heap sort finds. -/
def found (opts : List Opt) (shell batcher quick garbage : Stats) : Stats :=
  if Selected opts .q then quick
  else if Selected opts .b then batcher
  else if Selected opts .s then shell
  else garbage

theorem length_numbers (rand : ℕ → ℕ) (drawn : ℕ) :
    (numbers rand drawn).length = size.toNat := by
  simp [numbers]

theorem exists_sorts_iff {opts : List Opt} {k : Fin 8} {letter : Opt}
    (h : ∀ o : Opt, k ∈ o.sorts ↔ o = .a ∨ o = letter) :
    (∃ o ∈ opts, k ∈ o.sorts) ↔ Selected opts letter := by
  simp only [h, Selected]
  constructor
  · rintro ⟨o, ho, rfl | rfl⟩
    · exact Or.inl ho
    · exact Or.inr ho
  · rintro (ho | ho)
    · exact ⟨.a, ho, Or.inl rfl⟩
    · exact ⟨letter, ho, Or.inr rfl⟩

/-- A turn of the loop over the sorts. -/
theorem turn_eq {op : UInt32} {x : UInt8} {pr : Printed} {sorted : Option Printed} {P : Prop}
    [Decidable P] (hP : set_member op x = true ↔ P) {stats : Stats} {text : String}
    (hrun : sorted = some ⟨stats, pr.out ++ text⟩) :
    (if set_member op x then sorted else some pr) =
      some ⟨if P then stats else pr.stats, pr.out ++ if P then text else ""⟩ := by
  by_cases h : P
  · rw [if_pos (hP.mpr h), hrun, if_pos h, if_pos h]
  · rw [if_neg (mt hP.mp h), if_neg h, if_neg h, String.append_empty]

/-- With options that lead to the end, the program prints one report for each chosen sort, in
a fixed order whatever the order of the options: the numbers that `rand` gives after the `-r`
options, in order for the first three sorts. The counters of these are decided by the numbers,
those of heap sort start where the sort before it has left them. Heap sort prints the numbers
in some order, which the last number may spoil. -/
theorem main_reports (rand : ℕ → ℕ) (drawn more : ℕ) :
    ((heaped (numbers rand drawn)).Perm (numbers rand drawn) ∧
      ((numbers rand drawn).getD 99 0 ≤ (numbers rand drawn).getD 49 0 →
        heaped (numbers rand drawn) = (numbers rand drawn).mergeSort) ∧
      (heaped (numbers rand drawn) = (numbers rand drawn).mergeSort →
        ∃ i < 99, (numbers rand drawn).getD 99 0 ≤ (numbers rand drawn).getD i 0)) ∧
    ∃ shell batcher quick : Stats, ∀ (garbage : Stats) (opts : List Opt), Plain opts →
      opts.count .r = drawn → ∃ heap : Stats,
        (∃ c ≤ 888, heap.compares =
          (found opts shell batcher quick garbage).compares + UInt64.ofNat c) ∧
        main (102 + more) rand garbage opts = some (0, helps (opts.count .H) ++
          (early opts shell batcher quick (numbers rand drawn) ++
            late opts heap (numbers rand drawn))) := by
  have hxs := length_numbers rand drawn
  have hfuel : 101 < 102 + more := by omega
  obtain ⟨shell, hshell⟩ := report_reset "Shell" (shell_copy reset hxs hfuel)
  obtain ⟨batcher, hbatcher⟩ := report_reset "Batcher" (batcher_copy reset hxs hfuel)
  obtain ⟨quick, hquick⟩ := report_reset "Quick" (quick_copy reset hxs hfuel)
  refine ⟨⟨heaped_perm hxs, heaped_sorted hxs⟩, shell, batcher, quick,
    fun garbage opts hopts hdrawn => ?_⟩
  obtain ⟨op, hgetopts, hmem⟩ := getopts_eq hopts ⟨set_empty, 0, ""⟩
  have hselected : ∀ (x : UInt8) (letter : Opt),
      (∀ o : Opt, place x ∈ o.sorts ↔ o = .a ∨ o = letter) →
        (set_member op x = true ↔ Selected opts letter) := by
    intro x letter h
    rw [set_member_iff, hmem, members_empty, ← exists_sorts_iff h]
    simp
  have hs := hselected 0 .s fun o => by cases o <;> decide
  have hb := hselected 1 .b fun o => by cases o <;> decide
  have hq := hselected 2 .q fun o => by cases o <;> decide
  have hh := hselected 3 .h fun o => by cases o <;> decide
  have hearly : ∀ out, [0, 1, 2].foldlM (fun pr i =>
      if set_member op (UInt8.ofNat i) then runSort (102 + more) (numbers rand drawn) pr i
      else some pr) (⟨garbage, out⟩ : Printed) =
        some ⟨found opts shell batcher quick garbage,
          out ++ early opts shell batcher quick (numbers rand drawn)⟩ := by
    intro out
    have hfirst := turn_eq hs (hshell ⟨garbage, out⟩)
    have hsecond := fun pr : Printed => turn_eq hb (hbatcher pr)
    have hthird := fun pr : Printed => turn_eq hq (hquick pr)
    simp only [List.foldlM_cons, List.foldlM_nil, runSort, UInt8.reduceOfNat,
      Option.bind_eq_bind, Option.pure_def]
    rw [hfirst, Option.bind_some, hsecond, Option.bind_some, hthird]
    simp only [early, found, String.append_assoc, Option.bind_some]
  obtain ⟨heap, hcompares, hheap⟩ := report_heap hxs hfuel
    ⟨found opts shell batcher quick garbage,
      helps (opts.count .H) ++ early opts shell batcher quick (numbers rand drawn)⟩
  refine ⟨heap, hcompares, ?_⟩
  have hfourth := turn_eq hh hheap
  have hrange : List.range 4 = [0, 1, 2] ++ [3] := rfl
  have hstart : ("" : String) ++ helps (opts.count .H) = helps (opts.count .H) := by simp
  simp only [main, hgetopts, hdrawn, hrange, hstart, List.foldlM_append, hearly, Nat.zero_add,
    Option.bind_eq_bind, Option.bind_some, Bool.false_eq_true, if_false, Option.pure_def]
  simp only [List.foldlM_cons, List.foldlM_nil, UInt8.reduceOfNat, Option.bind_eq_bind,
    Option.pure_def, hfourth, Option.bind_some, late, String.append_assoc]

/-- Help and heap sort alone, on the numbers from one to a hundred. -/
theorem main_reports_heap : ∃ heap : Stats,
    main 102 (· + 1) reset [.h, .H] = some (0, help ++
      ("Running heap sort\n" ++ block "Heap" heap (heaped (numbers (· + 1) 0)))) := by
  obtain ⟨-, shell, batcher, quick, hreports⟩ := main_reports (· + 1) 0 0
  obtain ⟨heap, -, hmain⟩ := hreports reset [.h, .H] (by simp [Plain]) rfl
  refine ⟨heap, ?_⟩
  simpa [helps, early, late, Selected] using hmain

end FavoriteAssignments.Sorting
