import Mathlib.Order.Basic
import Mathlib.Order.Lattice
import Mathlib.Data.List.Pairwise
import Mathlib.Data.List.Basic
import Mathlib.Data.List.Nodup
import Mathlib.Data.List.Perm.Subperm

/-!
# Algorithms on strictly increasing lists

Binary search, galloping search, and the merges that compute union and
difference, over any linear order. A list is sorted when it is
`Pairwise (· < ·)`; a list so sorted is determined by its members
(`eq_of_same_members`), so each operation is specified by the members of its
result. A search is specified by the split it finds (`Search`): inserting or
erasing at that split needs no further index arithmetic.
-/

namespace SortedList

variable {α : Type} [LinearOrder α]

/-! ## Sorted lists as sets -/

/-- Sorted lists with the same members are equal. -/
theorem eq_of_same_members {l l' : List α} (sorted : l.Pairwise (· < ·)) (sorted' : l'.Pairwise (· < ·))
    (same : ∀ x, x ∈ l ↔ x ∈ l') : l = l' := by
  induction l generalizing l' with
  | nil =>
    cases l' with
    | nil => rfl
    | cons b l' => simpa using (same b).2 (by simp)
  | cons a l ih =>
    cases l' with
    | nil => simpa using (same a).1 (by simp)
    | cons b l' =>
      obtain ⟨least, rest⟩ := List.pairwise_cons.1 sorted
      obtain ⟨least', rest'⟩ := List.pairwise_cons.1 sorted'
      have heads : a = b := by
        rcases lt_trichotomy a b with lt | eq | gt
        · rcases List.mem_cons.1 ((same a).1 (by simp)) with h | h
          · exact h
          · exact absurd lt (not_lt_of_gt (least' a h))
        · exact eq
        · rcases List.mem_cons.1 ((same b).2 (by simp)) with h | h
          · exact h.symm
          · exact absurd gt (not_lt_of_gt (least b h))
      subst heads
      congr 1
      apply ih rest rest'
      intro x
      constructor
      · intro h
        rcases List.mem_cons.1 ((same x).1 (List.mem_cons_of_mem a h)) with rfl | h'
        · exact absurd (least x h) (lt_irrefl x)
        · exact h'
      · intro h
        rcases List.mem_cons.1 ((same x).2 (List.mem_cons_of_mem a h)) with rfl | h'
        · exact absurd (least' x h) (lt_irrefl x)
        · exact h'

theorem nodup_of_sorted {l : List α} (sorted : l.Pairwise (· < ·)) : l.Nodup :=
  sorted.imp fun h => ne_of_lt h

/-- A sorted list is no longer than a list with at least its members. -/
theorem length_le_of_subset {l l' : List α} (sorted : l.Pairwise (· < ·)) (within : ∀ x ∈ l, x ∈ l') :
    l.length ≤ l'.length :=
  (List.subperm_of_subset (nodup_of_sorted sorted) within).length_le

/-- Inserting between a smaller and a larger part keeps a list sorted. -/
theorem sorted_insert {pre post : List α} {x : α} (sorted : (pre ++ post).Pairwise (· < ·))
    (below : ∀ y ∈ pre, y < x) (above : ∀ y ∈ post, x < y) :
    (pre ++ x :: post).Pairwise (· < ·) := by
  obtain ⟨left, right, across⟩ := List.pairwise_append.1 sorted
  refine List.pairwise_append.2 ⟨left, List.pairwise_cons.2 ⟨above, right⟩, ?_⟩
  intro a ha b hb
  rcases List.mem_cons.1 hb with rfl | hb
  · exact below a ha
  · exact across a ha b hb

/-- In a sorted list the part before a member is below it and the part after
is above it. -/
theorem sorted_split {pre post : List α} {x : α} (sorted : (pre ++ x :: post).Pairwise (· < ·)) :
    (∀ y ∈ pre, y < x) ∧ ∀ y ∈ post, x < y := by
  obtain ⟨-, right, across⟩ := List.pairwise_append.1 sorted
  exact ⟨fun y hy => across y hy x (by simp), (List.pairwise_cons.1 right).1⟩

/-- Erasing one member of a sorted list removes exactly that value. -/
theorem mem_erased_iff {pre post : List α} {x : α} (sorted : (pre ++ x :: post).Pairwise (· < ·)) {y : α} :
    y ∈ pre ++ post ↔ y ∈ pre ++ x :: post ∧ y ≠ x := by
  obtain ⟨below, above⟩ := sorted_split sorted
  simp only [List.mem_append, List.mem_cons]
  constructor
  · rintro (h | h)
    · exact ⟨.inl h, ne_of_lt (below y h)⟩
    · exact ⟨.inr (.inr h), ne_of_gt (above y h)⟩
  · intro given
    obtain ⟨h | rfl | h, ne⟩ := given
    · exact .inl h
    · exact absurd rfl ne
    · exact .inr h

/-! ## Binary search -/

/-- What a search for `x` may return: the index of `x`, or `-(p + 1)` where `p`
is the position at which `x` would have to be inserted. -/
inductive Search (l : List α) (x : α) : Int → Prop where
  | hit (pre post : List α) (split : l = pre ++ x :: post) : Search l x pre.length
  | miss (pre post : List α) (split : l = pre ++ post) (below : ∀ y ∈ pre, y < x)
      (above : ∀ y ∈ post, x < y) : Search l x (-(pre.length + 1 : Int))

/-- The search loop on the window `[low, high)`. -/
def searchLoop (l : List α) (x : α) (low high : Nat) (bound : high ≤ l.length) : Int :=
  if window : low < high then
    let middle := (low + (high - 1)) / 2
    if l[middle] < x then searchLoop l x (middle + 1) high bound
    else if x < l[middle] then searchLoop l x low middle (by omega)
    else middle
  else -(low + 1 : Int)
termination_by high - low

/-- Binary search of the whole list. -/
def binarySearch (l : List α) (x : α) : Int := searchLoop l x 0 l.length (Nat.le_refl _)

/-- Everything left of the window is too small and everything right of it too
large: the window is where `x` can still be. -/
theorem searchLoop_search {l : List α} {x : α} (sorted : l.Pairwise (· < ·)) {low high : Nat}
    {bound : high ≤ l.length} (ordered : low ≤ high)
    (below : ∀ i (h : i < l.length), i < low → l[i] < x)
    (above : ∀ i (h : i < l.length), high ≤ i → x < l[i]) :
    Search l x (searchLoop l x low high bound) := by
  have increasing := List.pairwise_iff_getElem.1 sorted
  fun_induction searchLoop l x low high bound with
  | case1 low high bound window middle small ih =>
    have inside : middle < high := by omega
    refine ih (by omega) (fun i h hi => ?_) above
    rcases Nat.lt_or_eq_of_le (Nat.le_of_lt_succ hi) with lt | rfl
    · exact lt_trans (increasing i middle h (by omega) lt) small
    · exact small
  | case2 low high bound window middle notSmall large ih =>
    have inside : middle < high := by omega
    have left : low ≤ middle := by omega
    refine ih left below (fun i h hi => ?_)
    rcases Nat.lt_or_eq_of_le hi with lt | rfl
    · exact lt_trans large (increasing middle i (by omega) h lt)
    · exact large
  | case3 low high bound window middle notSmall notLarge =>
    have inside : middle < l.length := by omega
    have found : l[middle] = x := le_antisymm (le_of_not_gt notLarge) (le_of_not_gt notSmall)
    have split : l = l.take middle ++ x :: l.drop (middle + 1) := by
      conv_lhs => rw [← List.take_append_drop middle l, List.drop_eq_getElem_cons inside, found]
    have hit := Search.hit (l.take middle) (l.drop (middle + 1)) split
    rwa [List.length_take, Nat.min_eq_left (Nat.le_of_lt inside)] at hit
  | case4 low high bound window =>
    have done : low = high := by omega
    have miss := Search.miss (x := x) (l.take low) (l.drop low) (List.take_append_drop low l).symm
      (fun y hy => by
        obtain ⟨i, hi, rfl⟩ := List.mem_iff_getElem.1 hy
        rw [List.length_take] at hi
        rw [List.getElem_take]
        exact below i (by omega) (by omega))
      (fun y hy => by
        obtain ⟨i, hi, rfl⟩ := List.mem_iff_getElem.1 hy
        rw [List.length_drop] at hi
        rw [List.getElem_drop]
        exact above (low + i) (by omega) (by omega))
    rwa [List.length_take, Nat.min_eq_left (by omega)] at miss

/-- Binary search of a sorted list finds the value or its insertion point. -/
theorem binarySearch_search {l : List α} (sorted : l.Pairwise (· < ·)) (x : α) :
    Search l x (binarySearch l x) :=
  searchLoop_search sorted (Nat.zero_le _) (fun _ _ h => absurd h (Nat.not_lt_zero _))
    (fun _ h hi => absurd h (Nat.not_lt.2 hi))

/-- A search result is nonnegative exactly on the members. -/
theorem Search.nonneg_iff {l : List α} {x : α} {i : Int} (found : Search l x i) : 0 ≤ i ↔ x ∈ l := by
  cases found with
  | hit pre post split => simp [split]
  | miss pre post split below above =>
    have absent : x ∉ l := by
      rw [split, List.mem_append]
      rintro (h | h)
      · exact lt_irrefl x (below x h)
      · exact lt_irrefl x (above x h)
    simp only [absent, iff_false]
    omega

/-- A search for the key `x` in a list whose elements have keys. -/
inductive SearchBy {β : Type} (key : β → α) (l : List β) (x : α) : Int → Prop where
  | hit (pre : List β) (b : β) (post : List β) (split : l = pre ++ b :: post) (isKey : key b = x) :
      SearchBy key l x pre.length
  | miss (pre post : List β) (split : l = pre ++ post) (below : ∀ b ∈ pre, key b < x) (above : ∀ b ∈ post, x < key b) :
      SearchBy key l x (-(pre.length + 1 : Int))

/-- A search of the keys is a search of the elements. -/
theorem Search.by_key {β : Type} {key : β → α} {l : List β} {x : α} {i : Int} (search : Search (l.map key) x i) :
    SearchBy key l x i := by
  generalize isKeys : l.map key = keys at search
  cases search with
  | hit pre post split =>
    subst split
    obtain ⟨front, rest, rfl, rfl, isRest⟩ := List.map_eq_append_iff.1 isKeys
    obtain ⟨b, back, rfl, isKey, -⟩ := List.map_eq_cons_iff.1 isRest
    rw [List.length_map]
    exact .hit front b back rfl isKey
  | miss pre post split below above =>
    subst split
    obtain ⟨front, back, rfl, rfl, rfl⟩ := List.map_eq_append_iff.1 isKeys
    rw [List.length_map]
    exact .miss front back rfl (List.forall_mem_map.1 below) (List.forall_mem_map.1 above)

/-! ## Galloping search -/

/-- Double the span while the value it reaches is still below `x`. -/
def spanLoop (l : List α) (x : α) (lower span : Nat) (positive : 0 < span) : Nat :=
  if h : lower + span < l.length then
    if l[lower + span] < x then spanLoop l x lower (2 * span) (by omega) else span
  else span
termination_by l.length - (lower + span)

/-- Bisect between a value below `x` and one that is not. -/
def bisectLoop (l : List α) (x : α) (lower upper : Nat) (bound : upper < l.length) : Nat :=
  if gap : lower + 1 < upper then
    let mid := (lower + upper) / 2
    if l[mid] = x then mid
    else if l[mid] < x then bisectLoop l x mid upper bound
    else bisectLoop l x lower mid (by omega)
  else upper
termination_by upper - lower

/-- Decide at `upper`, or bisect below it. -/
def narrow (l : List α) (x : α) (lower upper : Nat) (bound : upper < l.length) : Nat :=
  if l[upper] = x then upper
  else if l[upper] < x then l.length
  else bisectLoop l x lower upper bound

/-- Galloping search: the first index from `lower` on whose value is at least `x`. -/
def gallop (l : List α) (lower : Nat) (x : α) : Nat :=
  if h : lower < l.length then
    if x ≤ l[lower] then lower
    else
      let span := spanLoop l x lower 1 Nat.one_pos
      if reached : lower + span < l.length then narrow l x (lower + span / 2) (lower + span) reached
      else narrow l x (lower + span / 2) (l.length - 1) (by omega)
  else lower

theorem le_bisectLoop (l : List α) (x : α) {first lower upper : Nat} {bound : upper < l.length} (low : first ≤ lower)
    (high : first ≤ upper) : first ≤ bisectLoop l x lower upper bound := by
  fun_induction bisectLoop l x lower upper bound with
  | case1 lower upper bound gap mid => omega
  | case2 lower upper bound gap mid _ _ ih => exact ih (by omega) high
  | case3 lower upper bound gap mid _ _ ih => exact ih low (by omega)
  | case4 => exact high

/-- The search never goes back, sorted list or not. -/
theorem le_gallop (l : List α) (lower : Nat) (x : α) : lower ≤ gallop l lower x := by
  have narrowed : ∀ (low upper : Nat) (bound : upper < l.length), lower ≤ low → lower ≤ upper →
      lower ≤ narrow l x low upper bound := by
    intro low upper bound first last
    unfold narrow
    split
    · exact last
    · split
      · omega
      · exact le_bisectLoop l x first last
  unfold gallop
  split
  · split
    · exact Nat.le_refl _
    · simp only
      split
      · exact narrowed _ _ _ (by omega) (by omega)
      · exact narrowed _ _ _ (by omega) (by omega)
  · exact Nat.le_refl _

/-- `r` is the least index from `start` on whose value is at least `x`. -/
structure LowerBound (l : List α) (start : Nat) (x : α) (r : Nat) : Prop where
  lower : start ≤ r
  upper : r ≤ l.length
  below : ∀ i (h : i < l.length), i < r → l[i] < x
  above : ∀ i (h : i < l.length), r ≤ i → x ≤ l[i]

section Gallop

variable {l : List α} {x : α}

/-- An index with everything before it below `x`, and itself not, is the
lower bound. -/
theorem LowerBound.of_sorted (sorted : l.Pairwise (· < ·)) {start r : Nat} (inside : r < l.length)
    (lower : start ≤ r) (below : ∀ i (h : i < l.length), i < r → l[i] < x) (here : x ≤ l[r]) :
    LowerBound l start x r := by
  refine ⟨lower, Nat.le_of_lt inside, below, ?_⟩
  intro i hi le
  rcases Nat.lt_or_eq_of_le le with lt | rfl
  · exact le_of_lt (lt_of_le_of_lt here (List.pairwise_iff_getElem.1 sorted r i inside hi lt))
  · exact here

/-- Below a value that is below `x`, everything is. -/
theorem below_of_sorted (sorted : l.Pairwise (· < ·)) {r : Nat} (inside : r < l.length) (small : l[r] < x) :
    ∀ i (h : i < l.length), i < r + 1 → l[i] < x := by
  intro i hi lt
  rcases Nat.lt_or_eq_of_le (Nat.le_of_lt_succ lt) with lt' | rfl
  · exact lt_trans (List.pairwise_iff_getElem.1 sorted i r hi inside lt') small
  · exact small

/-- The span loop stops at a span whose lower half is still below `x`, and
whose end is not, or lies outside the list. -/
theorem spanLoop_spec {lower span : Nat} (positive : 0 < span) (inside : lower + span / 2 < l.length)
    (below : l[lower + span / 2] < x) :
    ∃ s, spanLoop l x lower span positive = s ∧ 0 < s ∧ (∃ h : lower + s / 2 < l.length, l[lower + s / 2] < x) ∧
      ∀ h : lower + s < l.length, ¬ l[lower + s] < x := by
  fun_induction spanLoop l x lower span positive with
  | case1 span positive reached small ih =>
    have half : 2 * span / 2 = span := by omega
    exact ih (by omega) (by simpa only [half] using small)
  | case2 span positive reached large => exact ⟨span, rfl, positive, ⟨inside, below⟩, fun _ => large⟩
  | case3 span positive outside => exact ⟨span, rfl, positive, ⟨inside, below⟩, fun h => absurd h outside⟩

theorem bisectLoop_lowerBound (sorted : l.Pairwise (· < ·)) {start lower upper : Nat}
    {bound : upper < l.length} (first : start ≤ lower) (ordered : lower < upper) (inside : lower < l.length)
    (below : l[lower] < x) (above : x ≤ l[upper]) :
    LowerBound l start x (bisectLoop l x lower upper bound) := by
  fun_induction bisectLoop l x lower upper bound with
  | case1 lower upper bound gap mid found =>
    refine .of_sorted sorted (by omega) (by omega) (fun i hi lt => ?_) (le_of_eq found.symm)
    rw [← found]
    exact List.pairwise_iff_getElem.1 sorted i mid hi (by omega) lt
  | case2 lower upper bound gap mid different small ih => exact ih (by omega) (by omega) (by omega) small above
  | case3 lower upper bound gap mid different large ih => exact ih first (by omega) inside below (le_of_not_gt large)
  | case4 lower upper bound gap =>
    exact .of_sorted sorted bound (by omega)
      (fun i hi lt => below_of_sorted sorted (by omega) below i hi (by omega)) above

theorem narrow_lowerBound (sorted : l.Pairwise (· < ·)) {start lower upper : Nat} {bound : upper < l.length}
    (first : start ≤ lower) (ordered : lower ≤ upper) (inside : lower < l.length) (below : l[lower] < x)
    (last : l[upper] < x → upper = l.length - 1) : LowerBound l start x (narrow l x lower upper bound) := by
  unfold narrow
  split
  case isTrue found =>
    refine .of_sorted sorted bound (by omega) (fun i hi lt => ?_) (le_of_eq found.symm)
    rw [← found]
    exact List.pairwise_iff_getElem.1 sorted i upper hi bound lt
  case isFalse different =>
    split
    case isTrue small =>
      have atEnd := last small
      exact ⟨by omega, Nat.le_refl _, fun i hi _ => below_of_sorted sorted bound small i hi (by omega),
        fun i hi le => absurd hi (by omega)⟩
    case isFalse large =>
      have apart : lower ≠ upper := by
        rintro rfl
        exact large below
      exact bisectLoop_lowerBound sorted first (by omega) inside below (le_of_not_gt large)

/-- Galloping from an index with everything before it below `x` finds the lower bound. -/
theorem gallop_lowerBound (sorted : l.Pairwise (· < ·)) (x : α) {lower : Nat} (inside : lower ≤ l.length)
    (upTo : ∀ i (h : i < l.length), i < lower → l[i] < x) : LowerBound l lower x (gallop l lower x) := by
  unfold gallop
  split
  case isFalse short => exact ⟨Nat.le_refl _, inside, upTo, fun i h le => absurd h (by omega)⟩
  case isTrue long =>
    split
    case isTrue next => exact .of_sorted sorted long (Nat.le_refl _) upTo next
    case isFalse next =>
      obtain ⟨span, isSpan, positive, ⟨halfInside, halfBelow⟩, stopped⟩ :=
        spanLoop_spec Nat.one_pos (by simpa using long)
          (by simpa using lt_of_not_ge next)
      simp only [isSpan]
      split
      case isTrue reached =>
        exact narrow_lowerBound sorted (by omega) (by omega) halfInside halfBelow fun small =>
          absurd small (stopped reached)
      case isFalse outside =>
        exact narrow_lowerBound sorted (by omega) (by omega) halfInside halfBelow fun _ => rfl

/-- Galloping from any index before which everything is below `x` separates the
values below `x` from the others. -/
theorem gallop_separates (sorted : l.Pairwise (· < ·)) (x : α) (lower : Nat)
    (upTo : ∀ i (h : i < l.length), i < lower → l[i] < x) :
    (∀ i (h : i < l.length), i < gallop l lower x → l[i] < x) ∧
      ∀ i (h : i < l.length), gallop l lower x ≤ i → x ≤ l[i] := by
  by_cases inside : lower ≤ l.length
  · have bound := gallop_lowerBound sorted x inside upTo
    exact ⟨bound.below, bound.above⟩
  · have short : ¬ lower < l.length := by omega
    have stays : gallop l lower x = lower := dif_neg short
    rw [stays]
    exact ⟨upTo, fun i h from_ => absurd h (by omega)⟩

end Gallop

/-! ## Merges -/

/-- The union of two sorted lists. -/
def union : List α → List α → List α
  | l, [] => l
  | [], l => l
  | a :: l, b :: l' =>
    if a < b then a :: union l (b :: l')
    else if b < a then b :: union (a :: l) l'
    else a :: union l l'
termination_by l l' => l.length + l'.length

/-- The difference of two sorted lists. -/
def difference : List α → List α → List α
  | [], _ => []
  | l, [] => l
  | a :: l, b :: l' =>
    if a < b then a :: difference l (b :: l')
    else if a = b then difference l l'
    else difference (a :: l) l'
termination_by l l' => l.length + l'.length

theorem mem_union (l l' : List α) (x : α) : x ∈ union l l' ↔ x ∈ l ∨ x ∈ l' := by
  fun_induction union l l' with
  | case1 l => simp
  | case2 l => simp
  | case3 a l b l' lt ih => simp only [List.mem_cons, ih]; tauto
  | case4 a l b l' notLt gt ih => simp only [List.mem_cons, ih]; tauto
  | case5 a l b l' notLt notGt ih =>
    have same : a = b := le_antisymm (le_of_not_gt notGt) (le_of_not_gt notLt)
    simp only [List.mem_cons, ih, same]; tauto

theorem sorted_union {l l' : List α} (sorted : l.Pairwise (· < ·)) (sorted' : l'.Pairwise (· < ·)) :
    (union l l').Pairwise (· < ·) := by
  fun_induction union l l' with
  | case1 l => exact sorted
  | case2 l => exact sorted'
  | case3 a l b l' lt ih =>
    obtain ⟨least, rest⟩ := List.pairwise_cons.1 sorted
    refine List.pairwise_cons.2 ⟨fun x hx => ?_, ih rest sorted'⟩
    rcases (mem_union _ _ _).1 hx with h | h
    · exact least x h
    · rcases List.mem_cons.1 h with rfl | h
      · exact lt
      · exact lt_trans lt ((List.pairwise_cons.1 sorted').1 x h)
  | case4 a l b l' notLt gt ih =>
    obtain ⟨least, rest⟩ := List.pairwise_cons.1 sorted'
    refine List.pairwise_cons.2 ⟨fun x hx => ?_, ih sorted rest⟩
    rcases (mem_union _ _ _).1 hx with h | h
    · rcases List.mem_cons.1 h with rfl | h
      · exact gt
      · exact lt_trans gt ((List.pairwise_cons.1 sorted).1 x h)
    · exact least x h
  | case5 a l b l' notLt notGt ih =>
    obtain ⟨least, rest⟩ := List.pairwise_cons.1 sorted
    obtain ⟨least', rest'⟩ := List.pairwise_cons.1 sorted'
    have same : a = b := le_antisymm (le_of_not_gt notGt) (le_of_not_gt notLt)
    refine List.pairwise_cons.2 ⟨fun x hx => ?_, ih rest rest'⟩
    rcases (mem_union _ _ _).1 hx with h | h
    · exact least x h
    · exact same ▸ least' x h

theorem length_union_le (l l' : List α) : (union l l').length ≤ l.length + l'.length := by
  fun_induction union l l' <;> simp_all <;> omega

theorem difference_sublist (l l' : List α) : (difference l l').Sublist l := by
  fun_induction difference l l' with
  | case1 l' => exact List.Sublist.slnil
  | case2 l => exact List.Sublist.refl _
  | case3 a l b l' lt ih => exact ih.cons_cons a
  | case4 l b l' _ ih => exact ih.cons b
  | case5 a l b l' notLt ne ih => exact ih

theorem sorted_difference {l : List α} (sorted : l.Pairwise (· < ·)) (l' : List α) :
    (difference l l').Pairwise (· < ·) :=
  sorted.sublist (difference_sublist l l')

theorem mem_difference {l l' : List α} (sorted : l.Pairwise (· < ·)) (sorted' : l'.Pairwise (· < ·)) (x : α) :
    x ∈ difference l l' ↔ x ∈ l ∧ x ∉ l' := by
  fun_induction difference l l' with
  | case1 l' => simp
  | case2 l => simp
  | case3 a l b l' lt ih =>
    have apart : a ∉ b :: l' := by
      intro h
      rcases List.mem_cons.1 h with rfl | h
      · exact lt_irrefl a lt
      · exact lt_irrefl a (lt_trans lt ((List.pairwise_cons.1 sorted').1 a h))
    rw [List.mem_cons, ih (List.pairwise_cons.1 sorted).2 sorted', List.mem_cons (l := l)]
    constructor
    · rintro (rfl | ⟨h, no⟩)
      · exact ⟨.inl rfl, apart⟩
      · exact ⟨.inr h, no⟩
    · intro given
      obtain ⟨rfl | h, no⟩ := given
      · exact .inl rfl
      · exact .inr ⟨h, no⟩
  | case4 l b l' _ ih =>
    obtain ⟨least, rest⟩ := List.pairwise_cons.1 sorted
    rw [ih rest (List.pairwise_cons.1 sorted').2]
    simp only [List.mem_cons, not_or]
    constructor
    · intro given
      obtain ⟨h, no⟩ := given
      exact ⟨.inr h, ne_of_gt (least x h), no⟩
    · intro given
      obtain ⟨rfl | h, ne, no⟩ := given
      · exact absurd rfl ne
      · exact ⟨h, no⟩
  | case5 a l b l' notLt ne ih =>
    have above : b < a := lt_of_le_of_ne (le_of_not_gt notLt) (Ne.symm ne)
    rw [ih sorted (List.pairwise_cons.1 sorted').2]
    simp only [List.mem_cons (a := x) (b := b), not_or]
    refine and_congr_right fun h => ⟨fun no => ⟨?_, no⟩, fun no => no.2⟩
    rcases List.mem_cons.1 h with rfl | h
    · exact ne_of_gt above
    · exact ne_of_gt (lt_trans above ((List.pairwise_cons.1 sorted).1 x h))

end SortedList
