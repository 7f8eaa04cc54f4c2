import Treewalk.Proofs.Scope.Roots

/-!
# Taking in what was resolved

What is known about nodes grows in two ways: a distance is recorded unless the node has
one, and a call is marked. Both are told by look-ups alone: after any list of entries a
node has the distance that it had before, or else its first one in the list
(`Resolution.distance?_recordAll`). The entries of a resolution are one to a node, so
the order in which they are taken in does not show
(`Resolution.distance?_recordAll_of_perm`).

The findings about a program are about its own nodes
(`Program.distance?_resolve_of_not_mem`). Where these have fresh numbers, nothing
recorded before meets them.
-/

namespace Treewalk

variable {entries : List (NodeId × Nat)} {notes : List Note}

namespace Resolution

variable {other : Resolution}

/-! ## One entry -/

private theorem distance?_record (resolution : Resolution) (id id' : NodeId) (d : Nat) :
    (resolution.record id d).distance? id' =
      (resolution.distance? id').or (if id' = id then some d else none) := by
  unfold record distance?
  rw [Std.TreeMap.getElem?_insertIfNew]
  by_cases hid : id' = id
  · subst hid
    cases hold : resolution.distances[id']? with
    | none =>
      have hmem : id' ∉ resolution.distances := by
        simp [Std.TreeMap.mem_iff_isSome_getElem?, hold]
      simp [hmem]
    | some d' =>
      have hmem : id' ∈ resolution.distances := by
        simp [Std.TreeMap.mem_iff_isSome_getElem?, hold]
      simp [hmem]
  · have hcmp : compare id id' ≠ .eq := by simpa using Ne.symm hid
    simp [hid, hcmp]

theorem isNativeCall_mark (resolution : Resolution) (id id' : NodeId) :
    (resolution.mark id).isNativeCall id' =
      (resolution.isNativeCall id' || id' == id) := by
  unfold mark isNativeCall
  rw [Std.TreeSet.contains_insert, Bool.or_comm]
  by_cases hid : id' = id
  · simp [hid]
  · have hcmp : compare id id' ≠ .eq := by simpa using Ne.symm hid
    rw [beq_eq_false_iff_ne.2 hcmp, beq_eq_false_iff_ne.2 hid]

/-! ## Many entries -/

/-- Records distances one after the other. -/
def recordAll (resolution : Resolution) (entries : List (NodeId × Nat)) : Resolution :=
  entries.foldl (fun resolution entry => resolution.record entry.1 entry.2) resolution

/-- Marks calls one after the other. -/
def markAll (resolution : Resolution) (calls : List NodeId) : Resolution :=
  calls.foldl mark resolution

/-- Of the distances of a node the first one stays. -/
theorem distance?_recordAll (resolution : Resolution) (entries : List (NodeId × Nat))
    (id : NodeId) :
    (resolution.recordAll entries).distance? id =
      (resolution.distance? id).or (entries.lookup id) := by
  induction entries generalizing resolution with
  | nil => simp [recordAll]
  | cons entry entries ih =>
    obtain ⟨id', d⟩ := entry
    have hrest := ih (resolution.record id' d)
    rw [distance?_record] at hrest
    refine hrest.trans ?_
    rw [Option.or_assoc]
    by_cases hid : id = id'
    · simp [hid]
    · simp [List.lookup_cons, hid, beq_eq_false_iff_ne.2 hid]

@[simp] theorem isNativeCall_recordAll (resolution : Resolution)
    (entries : List (NodeId × Nat)) (id : NodeId) :
    (resolution.recordAll entries).isNativeCall id = resolution.isNativeCall id := by
  induction entries generalizing resolution with
  | nil => rfl
  | cons entry entries ih => exact ih (resolution.record entry.1 entry.2)

theorem isNativeCall_markAll (resolution : Resolution) (calls : List NodeId)
    (id : NodeId) :
    (resolution.markAll calls).isNativeCall id =
      (resolution.isNativeCall id || calls.contains id) := by
  induction calls generalizing resolution with
  | nil => simp [markAll]
  | cons call calls ih =>
    refine (ih (resolution.mark call)).trans ?_
    rw [isNativeCall_mark, List.contains_cons, Bool.or_assoc]

@[simp] theorem distance?_markAll (resolution : Resolution) (calls : List NodeId)
    (id : NodeId) :
    (resolution.markAll calls).distance? id = resolution.distance? id := by
  induction calls generalizing resolution with
  | nil => rfl
  | cons call calls ih => exact ih (resolution.mark call)

/-! ## All entries of a resolution -/

private theorem lookup_of_perm (h : entries.Perm other.distances.toList) (id : NodeId) :
    entries.lookup id = other.distance? id := by
  have hmem : ∀ d, (id, d) ∈ entries ↔ other.distance? id = some d := by
    intro d
    rw [h.mem_iff, Std.TreeMap.mem_toList_iff_getElem?_eq_some]
    rfl
  cases hlookup : entries.lookup id with
  | none =>
    cases hd : other.distance? id with
    | none => rfl
    | some d =>
      have hnone := List.lookup_eq_none_iff.1 hlookup (id, d) ((hmem d).2 hd)
      simp at hnone
  | some d =>
    obtain ⟨before, after, rfl, -⟩ := List.lookup_eq_some_iff.1 hlookup
    exact ((hmem d).1 (by simp)).symm

/-- However the entries of a resolution are ordered, a node has the distance that it had
before, or else the one in the resolution. -/
theorem distance?_recordAll_of_perm (resolution : Resolution)
    (h : entries.Perm other.distances.toList) (id : NodeId) :
    (resolution.recordAll entries).distance? id =
      (resolution.distance? id).or (other.distance? id) := by
  rw [distance?_recordAll, lookup_of_perm h]

theorem isNativeCall_markAll_of_perm (resolution : Resolution) {calls : List NodeId}
    (h : calls.Perm other.nativeCalls.toList) (id : NodeId) :
    (resolution.markAll calls).isNativeCall id =
      (resolution.isNativeCall id || other.isNativeCall id) := by
  rw [isNativeCall_markAll, h.contains_eq, Std.TreeSet.contains_toList]
  rfl

private theorem merge_eq (resolution other : Resolution) :
    resolution.merge other =
      (resolution.recordAll other.distances.toList).markAll
        other.nativeCalls.toList := by
  have hrecord : ∀ (entries : List (NodeId × Nat)) (r : Resolution),
      r.recordAll entries =
        ⟨entries.foldl (fun distances e => distances.insertIfNew e.1 e.2) r.distances,
          r.nativeCalls⟩ := by
    intro entries
    induction entries with
    | nil => exact fun _ => rfl
    | cons entry entries ih => exact fun r => ih (r.record entry.1 entry.2)
  have hmark : ∀ (calls : List NodeId) (r : Resolution),
      r.markAll calls =
        ⟨r.distances, calls.foldl (fun calls id => calls.insert id) r.nativeCalls⟩ := by
    intro calls
    induction calls with
    | nil => exact fun _ => rfl
    | cons call calls ih => exact fun r => ih (r.mark call)
  rw [hrecord, hmark, merge, Std.TreeMap.foldl_eq_foldl_toList,
    Std.TreeSet.foldl_eq_foldl_toList]

theorem distance?_merge (resolution other : Resolution) (id : NodeId) :
    (resolution.merge other).distance? id =
      (resolution.distance? id).or (other.distance? id) := by
  rw [merge_eq, distance?_markAll, distance?_recordAll_of_perm resolution (.refl _)]

theorem isNativeCall_merge (resolution other : Resolution) (id : NodeId) :
    (resolution.merge other).isNativeCall id =
      (resolution.isNativeCall id || other.isNativeCall id) := by
  rw [merge_eq, isNativeCall_markAll_of_perm _ (.refl _), isNativeCall_recordAll]

end Resolution

namespace Resolution

/-- The calls that are marked are those that were before and those that are found. -/
private theorem isNativeCall_foldl {resolution : Resolution} {id : NodeId} :
    (notes.foldl note resolution).isNativeCall id = true ↔
      Note.nativeCall id ∈ notes ∨ resolution.isNativeCall id = true := by
  induction notes generalizing resolution with
  | nil => simp
  | cons first rest ih =>
    rw [List.foldl_cons, ih, List.mem_cons]
    cases first with
    | distance id' d => simp [note, isNativeCall]
    | nativeCall id' =>
      rw [show resolution.note (.nativeCall id') = resolution.mark id' from rfl,
        isNativeCall_mark, Bool.or_eq_true, beq_iff_eq, Note.nativeCall.injEq]
      grind

theorem isNativeCall_ofNotes {id : NodeId} :
    (ofNotes notes).isNativeCall id = true ↔ Note.nativeCall id ∈ notes := by
  rw [ofNotes, isNativeCall_foldl]
  simp [empty, isNativeCall]

end Resolution

namespace Program

variable {program : Program} {natives : String → Bool} {globals : List String}
  {resolution : Resolution} {id : NodeId}

variable (h : program.resolve natives globals = .ok resolution)

include h

/-- What resolution gives are the findings of the program. -/
theorem eq_ofNotes_of_resolve :
    resolution =
      .ofNotes (Stmt.listNotes (program.sight natives globals) program.stmts) := by
  unfold resolve at h
  split at h
  · cases h
  · exact (Except.ok.inj h).symm

/-- Resolution finds nothing about the nodes of other programs. -/
theorem distance?_resolve_of_not_mem (hid : id ∉ program.ids) :
    resolution.distance? id = none := by
  rw [eq_ofNotes_of_resolve h]
  refine Resolution.distance?_ofNotes fun d => iff_of_false (fun hmem => ?_) (by simp)
  exact hid (Stmt.id_mem_of_mem_listNotes hmem)

theorem isNativeCall_resolve_of_not_mem (hid : id ∉ program.ids) :
    resolution.isNativeCall id = false := by
  rw [eq_ofNotes_of_resolve h]
  refine Bool.eq_false_iff.2 fun hcall => ?_
  exact hid (Stmt.id_mem_of_mem_listNotes (Resolution.isNativeCall_ofNotes.1 hcall))

end Program

end Treewalk
