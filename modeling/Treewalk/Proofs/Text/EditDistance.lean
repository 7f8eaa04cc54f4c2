import Mathlib.Order.Bounds.Basic
import Treewalk.Text.Distance

/-!
# Edit distance

What the distance between two texts is, said without a table: a text is edited by
inserting, deleting or replacing one character anywhere (`Edit`), and the distance is
the least number of edits in a row that turn one text into the other.

Edits may be made in any order and may undo each other. The way from edits to the table
leads through alignments (`Aligned`), which pass over both texts once, from left to
right. A row of edits is no better than an alignment because alignments can be put one
after the other (`Aligned.trans`), and the cheapest alignment is a recursion on the two
texts (`distance`). The table that is kept one row at a time holds the distances from
what has been read to all beginnings of the other text (`foldl_nextRow`).

* `isLeast_editDistance` — no fewer edits will do.
* `suggestions_nearest` — the distance and its laws, and what is suggested for a name.
-/

namespace Treewalk.Text

open List

variable {as bs : List Char} {n : Nat} {best : Option (String × Nat)}

/-! ## Edits -/

/-- One character is inserted, deleted or replaced. -/
inductive Edit : List Char → List Char → Prop where
  | insert (before after : List Char) (c : Char) : Edit (before ++ after)
      (before ++ c :: after)
  | delete (before after : List Char) (c : Char) : Edit (before ++ c :: after)
      (before ++ after)
  | replace (before after : List Char) (c d : Char) : Edit (before ++ c :: after)
      (before ++ d :: after)

/-- The second list comes about from the first one by that many edits in a row. -/
inductive Edits : Nat → List Char → List Char → Prop where
  | none {as : List Char} : Edits 0 as as
  | more {n : Nat} {as bs cs : List Char} (first : Edit as bs)
      (others : Edits n bs cs) : Edits (n + 1) as cs

/-- The distance of two lists, by what becomes of their first characters. -/
def distance : List Char → List Char → Nat
  | [], bs => bs.length
  | a :: as, [] => (a :: as).length
  | a :: as, b :: bs =>
    min (min (distance as (b :: bs) + 1) (distance (a :: as) bs + 1))
      (distance as bs + if a = b then 0 else 1)
termination_by as bs => as.length + bs.length

/-! ## Alignments -/

/-- The first list turns into the second one from left to right, with at most `n`
edits. -/
inductive Aligned : Nat → List Char → List Char → Prop where
  | nil {n : Nat} : Aligned n [] []
  | keep {n : Nat} {as bs : List Char} (c : Char) (h : Aligned n as bs) :
      Aligned n (c :: as) (c :: bs)
  | replace {n : Nat} {as bs : List Char} (a b : Char) (h : Aligned n as bs) :
      Aligned (n + 1) (a :: as) (b :: bs)
  | insert {n : Nat} {as bs : List Char} (b : Char) (h : Aligned n as bs) :
      Aligned (n + 1) as (b :: bs)
  | delete {n : Nat} {as bs : List Char} (a : Char) (h : Aligned n as bs) :
      Aligned (n + 1) (a :: as) bs

namespace Aligned

variable {n m : Nat} {as bs cs ds : List Char}

private theorem refl (as : List Char) : Aligned 0 as as := by
  induction as with
  | nil => exact .nil
  | cons c as ih => exact .keep c ih

private theorem mono (h : Aligned n as bs) (hle : n ≤ m) : Aligned m as bs := by
  induction h generalizing m with
  | nil => exact .nil
  | keep c _ ih => exact .keep c (ih hle)
  | replace a b _ ih =>
    obtain ⟨k, rfl⟩ : ∃ k, m = k + 1 := ⟨m - 1, by omega⟩
    exact .replace a b (ih (by omega))
  | insert b _ ih =>
    obtain ⟨k, rfl⟩ : ∃ k, m = k + 1 := ⟨m - 1, by omega⟩
    exact .insert b (ih (by omega))
  | delete a _ ih =>
    obtain ⟨k, rfl⟩ : ∃ k, m = k + 1 := ⟨m - 1, by omega⟩
    exact .delete a (ih (by omega))

private theorem symm (h : Aligned n as bs) : Aligned n bs as := by
  induction h with
  | nil => exact .nil
  | keep c _ ih => exact .keep c ih
  | replace a b _ ih => exact .replace b a ih
  | insert b _ ih => exact .delete b ih
  | delete a _ ih => exact .insert a ih

private theorem append (h : Aligned n as bs) (h' : Aligned m cs ds) :
    Aligned (n + m) (as ++ cs) (bs ++ ds) := by
  induction h with
  | nil => exact h'.mono (by omega)
  | keep c _ ih => exact .keep c ih
  | replace a b _ ih =>
    rw [Nat.add_right_comm]
    exact .replace a b ih
  | insert b _ ih =>
    rw [Nat.add_right_comm]
    exact .insert b ih
  | delete a _ ih =>
    rw [Nat.add_right_comm]
    exact .delete a ih

theorem reverse (h : Aligned n as bs) : Aligned n as.reverse bs.reverse := by
  induction h with
  | nil => exact .nil
  | keep c _ ih =>
    rw [reverse_cons, reverse_cons]
    exact ih.append (.refl [c])
  | replace a b _ ih =>
    rw [reverse_cons, reverse_cons]
    exact ih.append (.replace a b .nil)
  | @insert _ as _ b _ ih =>
    rw [reverse_cons, ← append_nil as.reverse]
    exact ih.append (.insert b .nil)
  | @delete _ _ bs a _ ih =>
    rw [reverse_cons, ← append_nil bs.reverse]
    exact ih.append (.delete a .nil)

/-- One alignment after another. A character that the first one inserts and the second
one deletes is dropped, and with it two edits. -/
theorem trans {n m : Nat} {as bs cs : List Char} :
    Aligned n as bs → Aligned m bs cs → Aligned (n + m) as cs
  | .nil, h' => h'.mono (by omega)
  | .delete a h, h' => mono (.delete a (h.trans h')) (by omega)
  | h, .insert c h' => .insert c (h.trans h')
  | .keep c h, .keep _ h' => .keep c (h.trans h')
  | .keep c h, .replace _ d h' => .replace c d (h.trans h')
  | .keep c h, .delete _ h' => .delete c (h.trans h')
  | .replace a b h, .keep _ h' => mono (.replace a b (h.trans h')) (by omega)
  | .replace a _ h, .replace _ d h' => mono (.replace a d (h.trans h')) (by omega)
  | .replace a _ h, .delete _ h' => mono (.delete a (h.trans h')) (by omega)
  | .insert b h, .keep _ h' => mono (.insert b (h.trans h')) (by omega)
  | .insert _ h, .replace _ d h' => mono (.insert d (h.trans h')) (by omega)
  | .insert _ h, .delete _ h' => (h.trans h').mono (by omega)
termination_by as.length + bs.length + cs.length

private theorem eq_of_zero (h : Aligned 0 as bs) : as = bs := by
  generalize hn : 0 = n at h
  induction h with
  | nil => rfl
  | keep c _ ih => rw [ih hn]
  | replace => omega
  | insert => omega
  | delete => omega

end Aligned

/-! ## Edits and alignments -/

theorem Edit.aligned (h : Edit as bs) : Aligned 1 as bs := by
  -- Both texts begin alike up to the place of the edit.
  have hbefore : ∀ {us vs : List Char} (before : List Char), Aligned 1 us vs →
      Aligned 1 (before ++ us) (before ++ vs) :=
    fun before h => ((Aligned.refl before).append h).mono (by omega)
  cases h with
  | insert before after c => exact hbefore before (.insert c (.refl after))
  | delete before after c => exact hbefore before (.delete c (.refl after))
  | replace before after c d => exact hbefore before (.replace c d (.refl after))

private theorem Edits.aligned {n : Nat} (h : Edits n as bs) : Aligned n as bs := by
  induction h with
  | none => exact .refl _
  | more first _ ih => exact (first.aligned.trans ih).mono (by omega)

private theorem Edit.cons (c : Char) (h : Edit as bs) : Edit (c :: as) (c :: bs) := by
  cases h with
  | insert before after d => exact .insert (c :: before) after d
  | delete before after d => exact .delete (c :: before) after d
  | replace before after d e => exact .replace (c :: before) after d e

private theorem Edits.cons {n : Nat} (c : Char) (h : Edits n as bs) :
    Edits n (c :: as) (c :: bs) := by
  induction h with
  | none => exact .none
  | more first _ ih => exact .more (first.cons c) ih

/-- The edits of an alignment one after the other. -/
private theorem Aligned.edits (h : Aligned n as bs) : ∃ k ≤ n, Edits k as bs := by
  induction h with
  | nil => exact ⟨0, Nat.zero_le _, .none⟩
  | keep c _ ih =>
    obtain ⟨k, hk, hedits⟩ := ih
    exact ⟨k, hk, hedits.cons c⟩
  | @replace _ as _ a b _ ih =>
    obtain ⟨k, hk, hedits⟩ := ih
    exact ⟨k + 1, by omega, .more (.replace [] as a b) (hedits.cons b)⟩
  | @insert _ as _ b _ ih =>
    obtain ⟨k, hk, hedits⟩ := ih
    exact ⟨k + 1, by omega, .more (.insert [] as b) (hedits.cons b)⟩
  | @delete _ as _ a _ ih =>
    obtain ⟨k, hk, hedits⟩ := ih
    exact ⟨k + 1, by omega, .more (.delete [] as a) hedits⟩

/-! ## The least number -/

private theorem aligned_nil_left (bs : List Char) : Aligned bs.length [] bs := by
  induction bs with
  | nil => exact .nil
  | cons b bs ih => exact .insert b ih

@[simp] theorem distance_nil_left (bs : List Char) : distance [] bs = bs.length := by
  rw [distance]

@[simp] theorem distance_nil_right (as : List Char) : distance as [] = as.length := by
  cases as with
  | nil => rw [distance]
  | cons a as => rw [distance]

private theorem distance_cons_cons (a b : Char) (as bs : List Char) :
    distance (a :: as) (b :: bs) =
      min (min (distance as (b :: bs) + 1) (distance (a :: as) bs + 1))
        (distance as bs + if a = b then 0 else 1) := by
  rw [distance]

private theorem aligned_distance (as bs : List Char) :
    Aligned (distance as bs) as bs := by
  fun_induction distance as bs with
  | case1 bs => exact aligned_nil_left bs
  | case2 a as => exact (aligned_nil_left (a :: as)).symm
  | case3 a as b bs delete insert replace =>
    -- The least of three numbers is one of them.
    rcases Nat.le_total (min (distance as (b :: bs) + 1) (distance (a :: as) bs + 1))
      (distance as bs + if a = b then 0 else 1) with hle | hle
    · rw [Nat.min_eq_left hle]
      rcases Nat.le_total (distance as (b :: bs) + 1) (distance (a :: as) bs + 1)
        with hle' | hle'
      · rw [Nat.min_eq_left hle']
        exact .delete a delete
      · rw [Nat.min_eq_right hle']
        exact .insert b insert
    · rw [Nat.min_eq_right hle]
      split
      · rename_i heq
        rw [heq]
        exact .keep b replace
      · exact .replace a b replace

/-- No alignment is cheaper. -/
private theorem Aligned.distance_le (h : Aligned n as bs) : distance as bs ≤ n := by
  induction h with
  | nil => simp
  | keep c _ ih =>
    rw [distance_cons_cons, if_pos rfl]
    omega
  | replace a b _ ih =>
    rw [distance_cons_cons]
    split <;> omega
  | @insert _ as bs b _ ih =>
    cases as with
    | nil =>
      simp only [distance_nil_left, length_cons] at ih ⊢
      omega
    | cons a as =>
      rw [distance_cons_cons]
      omega
  | @delete _ as bs a _ ih =>
    cases bs with
    | nil =>
      simp only [distance_nil_right, length_cons] at ih ⊢
      omega
    | cons b bs =>
      rw [distance_cons_cons]
      omega

private theorem distance_le_iff : distance as bs ≤ n ↔ Aligned n as bs :=
  ⟨fun h => (aligned_distance as bs).mono h, Aligned.distance_le⟩

private theorem isLeast_distance (as bs : List Char) :
    IsLeast {n | Edits n as bs} (distance as bs) := by
  have hbound : ∀ n, Edits n as bs → distance as bs ≤ n :=
    fun n h => h.aligned.distance_le
  obtain ⟨k, hk, hedits⟩ := (aligned_distance as bs).edits
  obtain rfl : k = distance as bs := Nat.le_antisymm hk (hbound k hedits)
  exact ⟨hedits, hbound⟩

private theorem distance_eq_zero_iff : distance as bs = 0 ↔ as = bs := by
  rw [← Nat.le_zero, distance_le_iff]
  refine ⟨Aligned.eq_of_zero, ?_⟩
  rintro rfl
  exact .refl as

private theorem distance_comm (as bs : List Char) : distance as bs = distance bs as :=
  Nat.le_antisymm (aligned_distance bs as).symm.distance_le
    (aligned_distance as bs).symm.distance_le

private theorem distance_triangle (as bs cs : List Char) :
    distance as cs ≤ distance as bs + distance bs cs :=
  ((aligned_distance as bs).trans (aligned_distance bs cs)).distance_le

/-! ## The table -/

private theorem distance_reverse (as bs : List Char) :
    distance as.reverse bs.reverse = distance as bs := by
  refine Nat.le_antisymm (aligned_distance as bs).reverse.distance_le ?_
  have h := (aligned_distance as.reverse bs.reverse).reverse.distance_le
  rwa [reverse_reverse, reverse_reverse] at h

/-- What may become of the last characters. The table is filled from left to right, so
it looks at them and not at the first ones. -/
theorem distance_concat (as bs : List Char) (a b : Char) :
    distance (as ++ [a]) (bs ++ [b]) =
      min (min (distance as (bs ++ [b]) + 1) (distance (as ++ [a]) bs + 1))
        (distance as bs + if a = b then 0 else 1) := by
  rw [← distance_reverse (as ++ [a]) (bs ++ [b]), ← distance_reverse as (bs ++ [b]),
    ← distance_reverse (as ++ [a]) bs, ← distance_reverse as bs, reverse_append,
      reverse_append]
  exact distance_cons_cons a b as.reverse bs.reverse

/-- The distances to the beginnings of a text that is `done` and then `target`, from
`done` on. -/
def distances (as done : List Char) : List Char → List Nat
  | [] => [distance as done]
  | t :: target => distance as done :: distances as (done ++ [t]) target

private theorem distances_eq_cons (as done target : List Char) :
    distances as done target = distance as done :: (distances as done target).tail := by
  cases target with
  | nil => rfl
  | cons t target => rfl

private theorem getLastD_distances (as done target : List Char) (d : Nat) :
    (distances as done target).getLastD d = distance as (done ++ target) := by
  induction target generalizing done d with
  | nil => simp [distances]
  | cons t target ih =>
    rw [distances, getLastD_cons, ih, append_assoc, singleton_append]

private theorem firstRow_eq (target : List Char) :
    firstRow target = distances [] [] target := by
  have hrange : ∀ done : List Char,
      distances [] done target = List.range' done.length (target.length + 1) := by
    induction target with
    | nil => simp [distances]
    | cons t target ih =>
      intro done
      rw [distances, ih, length_cons, List.range'_succ, distance_nil_left,
        length_append]
      rfl
  rw [firstRow, range_eq_range', hrange]
  rfl

/-- The rest of a row is filled from its left neighbour and the row above. -/
theorem extendRow_distances (as : List Char) (c : Char) (target done : List Char) :
    extendRow c target (distances as done target) (distance (as ++ [c]) done) =
      (distances (as ++ [c]) done target).tail := by
  induction target generalizing done with
  | nil => rfl
  | cons t target ih =>
    rw [distances, distances, tail_cons, distances_eq_cons as (done ++ [t]), extendRow,
      ← distances_eq_cons, ← distance_concat, ih, ← distances_eq_cons]

private theorem nextRow_distances (as target : List Char) (c : Char) :
    nextRow target (distances as [] target) c = distances (as ++ [c]) [] target := by
  have hfirst : (distances as [] target).headD 0 + 1 = distance (as ++ [c]) [] := by
    rw [distances_eq_cons, headD_cons, distance_nil_right, distance_nil_right,
      length_append]
    rfl
  rw [nextRow, hfirst, extendRow_distances, ← distances_eq_cons]

/-- After the characters `as` the row holds the distances from `as`. -/
theorem foldl_nextRow (target as rest : List Char) :
    rest.foldl (nextRow target) (distances as [] target) =
      distances (as ++ rest) [] target := by
  induction rest generalizing as with
  | nil => rw [foldl_nil, append_nil]
  | cons c rest ih =>
    rw [foldl_cons, nextRow_distances, ih, append_assoc, singleton_append]

theorem listDistance_eq_distance (source target : List Char) :
    listDistance source target = distance source target := by
  rw [listDistance, firstRow_eq, foldl_nextRow, getLastD_distances, nil_append,
    nil_append]

theorem isLeast_editDistance (a b : String) :
    IsLeast {n | Edits n a.toList b.toList} (editDistance a b) := by
  rw [editDistance, listDistance_eq_distance]
  exact isLeast_distance _ _

example : editDistance "kitten" "sitting" = 3 := by decide

/-! ## Suggestions -/

/-- The first of the candidates, other than the name itself, that are nearest to the
name, if it is near enough. -/
structure Nearest (name : String) (budget : Nat) (candidates : List String)
    (found : String) : Prop where
  other : found ≠ name
  within : editDistance name found ≤ budget
  least : ∀ c ∈ candidates, c ≠ name → editDistance name found ≤ editDistance name c
  first : ∃ before after, candidates = before ++ found :: after ∧
    ∀ c ∈ before, c ≠ name → editDistance name found < editDistance name c

/-- No candidate is near enough. -/
def NoneNear (name : String) (budget : Nat) (candidates : List String) : Prop :=
  ∀ c ∈ candidates, c ≠ name → budget < editDistance name c

section Candidates

variable {name c found : String} {budget : Nat} {seen candidates : List String}

private theorem NoneNear.concat (h : NoneNear name budget seen)
    (hc : c ≠ name → budget < editDistance name c) :
    NoneNear name budget (seen ++ [c]) := by
  intro other hother hne
  rcases mem_append.1 hother with hother | hother
  · exact h other hother hne
  · obtain rfl := mem_singleton.1 hother
    exact hc hne

private theorem Nearest.skip (h : Nearest name budget seen found)
    (hc : c ≠ name → editDistance name found ≤ editDistance name c) :
    Nearest name budget (seen ++ [c]) found := by
  obtain ⟨before, after, hseen, hbefore⟩ := h.first
  refine ⟨h.other, h.within, fun other hother hne => ?_, before, after ++ [c],
    ?_, hbefore⟩
  · rcases mem_append.1 hother with hother | hother
    · exact h.least other hother hne
    · obtain rfl := mem_singleton.1 hother
      exact hc hne
  · rw [hseen, append_assoc, cons_append]

/-- A candidate that is nearer than all before it takes their place. -/
theorem nearest_concat (hc : c ≠ name) (hwithin : editDistance name c ≤ budget)
    (hseen : ∀ other ∈ seen, other ≠ name →
      editDistance name c < editDistance name other) :
    Nearest name budget (seen ++ [c]) c := by
  refine ⟨hc, hwithin, fun other hother hne => ?_, seen, [], rfl, hseen⟩
  rcases mem_append.1 hother with hother | hother
  · exact Nat.le_of_lt (hseen other hother hne)
  · rw [mem_singleton.1 hother]

/-- What the search holds after some of the candidates. -/
def Best (name : String) (budget : Nat) (seen : List String) :
    Option (String × Nat) → Prop
  | none => NoneNear name budget seen
  | some (found, d) => d = editDistance name found ∧ Nearest name budget seen found

private theorem Best.consider (h : Best name budget seen best) (c : String) :
    Best name budget (seen ++ [c]) (nearer name budget best c) := by
  unfold nearer
  by_cases hname : c = name
  · rw [if_pos hname]
    cases best with
    | none => exact h.concat fun hne => absurd hname hne
    | some entry => exact ⟨h.1, h.2.skip fun hne => absurd hname hne⟩
  · rw [if_neg hname]
    by_cases hbudget : editDistance name c ≤ budget
    · simp only [hbudget, if_true]
      cases best with
      | none =>
        refine ⟨rfl, nearest_concat hname hbudget fun other hother hne => ?_⟩
        exact Nat.lt_of_le_of_lt hbudget (h other hother hne)
      | some entry =>
        obtain ⟨found, d⟩ := entry
        obtain ⟨rfl, hnearest⟩ := h
        by_cases hless : editDistance name c < editDistance name found
        · simp only [hless, if_true]
          refine ⟨rfl, nearest_concat hname hbudget fun other hother hne => ?_⟩
          exact Nat.lt_of_lt_of_le hless (hnearest.least other hother hne)
        · simp only [hless, if_false]
          exact ⟨rfl, hnearest.skip fun _ => Nat.le_of_not_lt hless⟩
    · simp only [hbudget, if_false]
      cases best with
      | none => exact h.concat fun _ => Nat.lt_of_not_le hbudget
      | some entry =>
        refine ⟨h.1, h.2.skip fun _ => ?_⟩
        exact Nat.le_trans h.2.within (Nat.le_of_not_le hbudget)

theorem Best.foldl (h : Best name budget seen best) (rest : List String) :
    Best name budget (seen ++ rest) (rest.foldl (nearer name budget) best) := by
  induction rest generalizing seen best with
  | nil =>
    rw [append_nil]
    exact h
  | cons c rest ih =>
    rw [append_cons]
    exact ih (h.consider c)

private theorem Nearest.unique {other : String}
    (h : Nearest name budget candidates found)
    (h' : Nearest name budget candidates other) : found = other := by
  obtain ⟨before, after, hsplit, hbefore⟩ := h.first
  obtain ⟨before', after', hsplit', hbefore'⟩ := h'.first
  have hle := h.least other (by simp [hsplit']) h'.other
  have hle' := h'.least found (by simp [hsplit]) h.other
  -- Neither of the two stands before the other one.
  rcases append_eq_append_iff.1 (hsplit.symm.trans hsplit')
    with ⟨mid, rfl, hmid⟩ | ⟨mid, rfl, hmid⟩
  · cases mid with
    | nil => exact (List.cons.inj hmid).1
    | cons c mid =>
      obtain rfl := (List.cons.inj hmid).1
      have hlt := hbefore' found (by simp) h.other
      omega
  · cases mid with
    | nil => exact (List.cons.inj hmid).1.symm
    | cons c mid =>
      obtain rfl := (List.cons.inj hmid).1
      have hlt := hbefore other (by simp) h'.other
      omega

/-- The search finds the first nearest candidate, unless no candidate is near enough. -/
private theorem nearest?_cases (name : String) (candidates : List String)
    (budget : Nat) :
    nearest? name candidates budget = none ∧ NoneNear name budget candidates ∨
      ∃ found, nearest? name candidates budget = some found ∧
        Nearest name budget candidates found := by
  have hstart : Best name budget [] none := fun _ hmem => absurd hmem not_mem_nil
  have hbest := hstart.foldl candidates
  unfold nearest?
  cases hfold : candidates.foldl (nearer name budget) none with
  | none =>
    rw [hfold] at hbest
    exact .inl ⟨rfl, hbest⟩
  | some entry =>
    rw [hfold] at hbest
    exact .inr ⟨entry.1, rfl, hbest.2⟩

private theorem Nearest.not_noneNear (h : Nearest name budget candidates found) :
    ¬NoneNear name budget candidates := by
  intro hnone
  obtain ⟨before, after, rfl, -⟩ := h.first
  exact absurd h.within (Nat.not_le.2 (hnone found (by simp) h.other))

private theorem nearest?_eq_none_iff :
    nearest? name candidates budget = none ↔ NoneNear name budget candidates := by
  rcases nearest?_cases name candidates budget
    with ⟨heq, hnone⟩ | ⟨found, heq, hnearest⟩
  · exact iff_of_true heq hnone
  · exact iff_of_false (by rw [heq]; exact Option.some_ne_none found)
      hnearest.not_noneNear

private theorem nearest?_eq_some_iff :
    nearest? name candidates budget = some found ↔
      Nearest name budget candidates found := by
  rcases nearest?_cases name candidates budget
    with ⟨heq, hnone⟩ | ⟨other, heq, hnearest⟩
  · refine iff_of_false ?_ fun h => h.not_noneNear hnone
    rw [heq]
    exact (Option.some_ne_none found).symm
  · rw [heq, Option.some.injEq]
    constructor
    · rintro rfl
      exact hnearest
    · exact hnearest.unique

end Candidates

/-- The distance of two texts is what the recursion on them says, and the least number
of edits that turn one into the other. So it is zero between equal texts only, the same
both ways, and no longer than a way round. What is suggested for a name is the first of
the nearest candidates other than the name, and nothing exactly if none of them is
within the budget. -/
theorem suggestions_nearest :
    (∀ a b : String, editDistance a b = distance a.toList b.toList ∧
      IsLeast {n | Edits n a.toList b.toList} (editDistance a b)) ∧
    (∀ a b : String, editDistance a b = 0 ↔ a = b) ∧
    (∀ a b : String, editDistance a b = editDistance b a) ∧
    (∀ a b c : String, editDistance a c ≤ editDistance a b + editDistance b c) ∧
    ∀ (name : String) (candidates : List String) (budget : Nat),
      (nearest? name candidates budget = none ↔
        ∀ c ∈ candidates, c ≠ name → budget < editDistance name c) ∧
      ∀ found, nearest? name candidates budget = some found ↔
        Nearest name budget candidates found := by
  have heq : ∀ a b : String, editDistance a b = distance a.toList b.toList :=
    fun a b => listDistance_eq_distance _ _
  refine ⟨fun a b => ⟨heq a b, isLeast_editDistance a b⟩, fun a b => ?_, fun a b => ?_,
    fun a b c => ?_, ?_⟩
  · rw [heq, distance_eq_zero_iff, String.toList_inj]
  · rw [heq, heq]
    exact distance_comm _ _
  · rw [heq, heq, heq]
    exact distance_triangle _ _ _
  · intro name candidates budget
    exact ⟨nearest?_eq_none_iff, fun found => nearest?_eq_some_iff⟩

example : nearest? "coutn" ["coutn", "cousin", "count"] 2 = some "cousin" := by decide

end Treewalk.Text
