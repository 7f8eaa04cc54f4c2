import Treewalk.Proofs.Machine.Recast
import Treewalk.Proofs.Session.Numbers
import Treewalk.Proofs.Tree.Exact

/-!
# Sessions that differ in numbers

Whether a text is accepted does not depend on the session it is given to: reading and
resolving fail for reasons of the text alone (`Session.isOk_prepare`). So one of two
sessions may have drawn more numbers than the other and still know the same, up to a
renaming (`Session.Tied`). A text that both run gets the same answer from both and
leaves them tied (`Session.Tied.take`).
-/

namespace Treewalk

variable {task : Program → Task}

/-! ## Texts -/

namespace Source

variable {n next : NodeId} {source : String} {program : Program}

/-- Whether a text is a program that can be resolved. -/
def isAccepted (source : String) : Bool :=
  (check (fun _ => false) source).isOk

private theorem read_rename {ρ : NodeId → NodeId} {k : NodeId}
    (h : read n source = (.ok program, next)) (hρ : Grammar.Shifts ρ k n next) :
    read (k + n) source = (.ok (program.rename ρ), k + next) := by
  obtain ⟨tokens, htokens, hparse⟩ := read_eq_ok_iff.1 h
  exact read_eq_ok_iff.2 ⟨tokens, htokens, parse_rename hparse hρ⟩

private theorem exists_read_zero (h : read n source = (.ok program, next)) :
    ∃ first m, read 0 source = (.ok first, m) ∧ program = first.rename (n + ·) ∧
      next = n + m := by
  obtain ⟨tokens, htokens, hparse⟩ := read_eq_ok_iff.1 h
  have hderivable := (parse_ok_iff_derivable n tokens).1 ⟨program, next, hparse⟩
  obtain ⟨first, m, hfirst⟩ := (parse_ok_iff_derivable 0 tokens).2 hderivable
  have hagain := parse_rename hfirst (fun i _ _ => rfl : Grammar.Shifts (n + ·) n 0 m)
  rw [Nat.add_zero, hparse] at hagain
  obtain ⟨hprogram, hnext⟩ := Prod.mk.inj hagain
  exact ⟨first, m, read_eq_ok_iff.2 ⟨tokens, htokens, hfirst⟩,
    Except.ok.inj hprogram, hnext⟩

private theorem isAccepted_iff : isAccepted source = true ↔
    ∃ program next, read 0 source = (.ok program, next) ∧
      Stmt.listFault? program.stmts = none := by
  unfold isAccepted check Program.resolve
  generalize hread : read 0 source = found
  obtain ⟨_ | program, next⟩ := found
  · simp [Except.isOk, Except.toBool]
  · cases hfault : Stmt.listFault? program.stmts <;>
      simp [Except.isOk, Except.toBool, hfault]

/-- An accepted text draws equally many numbers wherever they start. -/
theorem next_read_of_isAccepted (h : isAccepted source = true) (k n : NodeId) :
    (read (k + n) source).2 = k + (read n source).2 := by
  obtain ⟨program, m, hread, -⟩ := isAccepted_iff.1 h
  have hfrom : ∀ start, (read start source).2 = start + m := by
    intro start
    have hlater :=
      read_rename hread (fun i _ _ => rfl : Grammar.Shifts (start + ·) start 0 m)
    rw [Nat.add_zero] at hlater
    rw [hlater]
  rw [hfrom, hfrom, Nat.add_assoc]

end Source

/-! ## Tasks -/

/-- The task with the nodes of its tree renamed. -/
def Task.rename (ρ : NodeId → NodeId) : Task → Task
  | evaluate expr => evaluate (expr.rename ρ)
  | script program => script (program.rename ρ)
  | run program => run (program.rename ρ)

theorem Task.ofLine_rename (ρ : NodeId → NodeId) (program : Program) :
    ofLine (program.rename ρ) = (ofLine program).rename ρ := by
  obtain ⟨stmts⟩ := program
  rcases stmts with _ | ⟨stmt, _ | ⟨other, rest⟩⟩
  · rfl
  · cases stmt with
    | branch span cond onTrue onFalse =>
      cases onFalse <;>
        simp only [Program.rename, Program.recast, List.map_cons, List.map_nil,
          Stmt.recast, ofLine, rename]
    | _ =>
      simp only [Program.rename, Program.recast, List.map_cons, List.map_nil,
        Stmt.recast, Recast.id_ofRenaming, Recast.brk_ofRenaming, ofLine, rename]
  · simp only [Program.rename, Program.recast, List.map_cons, ofLine, rename]
    generalize stmt.recast (.ofRenaming ρ) = renamed
    cases renamed <;> rfl

private theorem Use.task_rename {use : Use} (h : use.task? = some task)
    (ρ : NodeId → NodeId) (program : Program) :
    task (program.rename ρ) = (task program).rename ρ := by
  cases use with
  | line =>
    cases h
    exact Task.ofLine_rename ρ program
  | run =>
    cases h
    rfl
  | prepare => cases h

private theorem Task.machine_rename (ρ : NodeId → NodeId) (heap : Heap) (task : Task) :
    (task.rename ρ).machine (heap.rename ρ) =
      (task.machine heap).recast (.ofRenaming ρ) := by
  cases task with
  | evaluate expr => rfl
  | script program => rfl
  | run program => exact Machine.ofProgram_recast _ heap program

theorem Heap.rename_start (ρ : NodeId → NodeId) (natives : List Native) :
    (Heap.start natives).rename ρ = Heap.start natives :=
  Heap.recast_start _ natives

/-! ## Sessions -/

/-- The answer with the nodes of its trees renamed. Its output, its error and its global
names stay. -/
def Answer.rename (ρ : NodeId → NodeId) (answer : Answer) : Answer where
  turn := answer.turn
  parsed := answer.parsed.map (Program.rename ρ)
  result := answer.result.map fun value => value.map (Value.rename ρ)
  output := answer.output
  globals := answer.globals

namespace Session

variable {session : Session} {source : String}

/-- Whether a text is taken in does not depend on the session. -/
theorem isOk_prepare (session : Session) (source : String) :
    (session.prepare source).2.isOk = Source.isAccepted source := by
  refine Bool.eq_iff_iff.2 ⟨fun h => ?_, fun h => ?_⟩
  · generalize hprepare : session.prepare source = prepared at h
    obtain ⟨session', _ | program⟩ := prepared
    · cases h
    · obtain ⟨next, resolution, hread, hresolve, -⟩ := prepare_eq_ok_iff.1 hprepare
      obtain ⟨first, m, hfirst, rfl, -⟩ := Source.exists_read_zero hread
      refine Source.isAccepted_iff.2 ⟨first, m, hfirst, ?_⟩
      unfold Program.resolve at hresolve
      rw [first.listFault?_rename] at hresolve
      cases hfault : Stmt.listFault? first.stmts with
      | none => rfl
      | some fault =>
        rw [hfault] at hresolve
        cases hresolve
  · obtain ⟨first, m, hfirst, hfault⟩ := Source.isAccepted_iff.1 h
    have hread := Source.read_rename hfirst
      (fun i _ _ => rfl : Grammar.Shifts (session.nextId + ·) session.nextId 0 m)
    have hresolve : (first.rename (session.nextId + ·)).resolve
      (Native.enabled session.natives)
        session.globalNames =
        .ok (.ofNotes (Stmt.listNotes ((first.rename (session.nextId + ·)).sight
          (Native.enabled session.natives) session.globalNames)
          (first.rename (session.nextId + ·)).stmts)) := by
      unfold Program.resolve
      rw [first.listFault?_rename, hfault]
    rw [prepare_eq_ok_iff.2 ⟨_, _, hread, hresolve, rfl⟩]
    rfl

/-- The first session has drawn more numbers than the second, and is the second one with
nodes renamed. -/
structure Tied (ρ : NodeId → NodeId) (full short : Session) : Prop where
  settings : full.settings = short.settings
  natives : full.natives = short.natives
  heap : full.heap = short.heap.rename ρ
  resolution : short.resolution.Renamed ρ full.resolution
  bounded : full.Bounded
  le : short.nextId ≤ full.nextId
  old : ∀ id < short.nextId, ρ id < full.nextId

namespace Tied

variable {ρ : NodeId → NodeId} {full short : Session}

variable (h : Tied ρ full short)

include h

private theorem globalNames : full.globalNames = short.globalNames := by
  rw [Session.globalNames, h.heap, Heap.rename, Heap.globalNames_recast]
  rfl

private theorem context (host : Host) :
    (short.context host).Matches (.ofRenaming ρ) (full.context host) :=
  ⟨rfl, h.settings, h.natives, rfl, h.resolution, fun hreturns => by cases hreturns⟩

/-- A text that only the first session reads leaves the two tied, if later numbers are
renamed to ones that it did not draw. -/
theorem prepare_left (source : String)
    (hnew : ∀ id, short.nextId ≤ id → (Source.read full.nextId source).2 ≤ ρ id) :
    Tied ρ (full.prepare source).1 short := by
  have hdrawn := Drawn.of_prepare h.bounded source
  have hnext := full.nextId_prepare source
  obtain ⟨hsettings, hnatives, hheap⟩ :=
    kept_of_prepare (Prod.eta (full.prepare source)).symm
  refine ⟨hsettings.trans h.settings, hnatives.trans h.natives, hheap.trans h.heap, ?_,
    hdrawn.bounded, Nat.le_trans h.le hdrawn.le, ?_⟩
  · intro id
    have hsame : (full.prepare source).1.resolution.SameAt full.resolution (ρ id) := by
      by_cases hid : id < short.nextId
      · exact hdrawn.kept (ρ id) (h.old id hid)
      · have hfree : (full.prepare source).1.nextId ≤ ρ id := by
          rw [hnext]
          exact hnew id (Nat.le_of_not_lt hid)
        exact (hdrawn.bounded _ hfree).trans
          (h.bounded _ (Nat.le_trans hdrawn.le hfree)).symm
    exact ⟨hsame.1.trans (h.resolution id).1, hsame.2.trans (h.resolution id).2⟩
  · intro id hid
    exact Nat.lt_of_lt_of_le (h.old id hid) hdrawn.le

private theorem prepare (hρ : Function.Injective ρ)
    (haccepted : Source.isAccepted source = true)
    (hshift : Grammar.Shifts ρ (full.nextId - short.nextId) short.nextId
      (Source.read short.nextId source).2) :
    ∃ full' short' program, short.prepare source = (short', .ok program) ∧
      full.prepare source = (full', .ok (program.rename ρ)) ∧ Tied ρ full' short' := by
  have hk : full.nextId - short.nextId + short.nextId = full.nextId :=
    Nat.sub_add_cancel h.le
  generalize hprepare : short.prepare source = prepared
  obtain ⟨short', _ | program⟩ := prepared
  · have hok := short.isOk_prepare source
    rw [hprepare, haccepted] at hok
    cases hok
  · obtain ⟨next, resolution, hread, hresolve, rfl⟩ := prepare_eq_ok_iff.1 hprepare
    rw [hread] at hshift
    have hread' := Source.read_rename hread hshift
    rw [hk] at hread'
    rcases Program.resolve_rename hρ program (Native.enabled short.natives)
      short.globalNames with
      ⟨fault, hfault, -⟩ | ⟨resolution', renamed, hshort, hfull, hrenamed⟩
    · rw [hresolve] at hfault
      cases hfault
    · rw [hresolve] at hshort
      obtain rfl := Except.ok.inj hshort
      rw [← h.natives, ← h.globalNames] at hfull
      have hprepare' := prepare_eq_ok_iff.2 ⟨_, _, hread', hfull, rfl⟩
      have hdrawn := Drawn.of_prepare h.bounded source
      rw [hprepare'] at hdrawn
      refine ⟨_, _, program, rfl, hprepare', h.settings, h.natives, h.heap,
        h.resolution.merge hrenamed, hdrawn.bounded, Nat.le_add_left _ _, ?_⟩
      intro id hid
      by_cases hold : id < short.nextId
      · exact Nat.lt_of_lt_of_le (h.old id hold) hdrawn.le
      · rw [hshift id (Nat.le_of_not_lt hold) hid]
        exact Nat.add_lt_add_left hid _

private theorem perform (limit : Nat) (host : Host) (task : Task) :
    (short.perform limit host task = none ∧
      full.perform limit host (task.rename ρ) = none) ∨ ∃ full' short' report,
      short.perform limit host task = some (short', report) ∧
        full.perform limit host (task.rename ρ) =
          some (full', ⟨report.result.map fun value => value.map (Value.rename ρ),
            report.output⟩) ∧
        Tied ρ full' short' ∧ full'.nextId = full.nextId ∧
        short'.nextId = short.nextId := by
  have hmachine : (task.rename ρ).machine full.heap =
      (task.machine short.heap).recast (.ofRenaming ρ) := by
    rw [h.heap, Task.machine_rename]
  rw [perform_recast (h.context host) hmachine limit]
  cases hperform : short.perform limit host task with
  | none => exact .inl ⟨rfl, rfl⟩
  | some done =>
    obtain ⟨short', report⟩ := done
    obtain ⟨result, -, heq⟩ := Option.map_eq_some_iff.1 hperform
    cases heq
    exact .inr ⟨_, _, _, rfl, rfl, ⟨h.settings, h.natives, rfl, h.resolution,
      h.bounded, h.le, h.old⟩, rfl, rfl⟩

/-- Tied sessions answer a turn that runs something alike, up to the renaming, and stay
tied. -/
theorem take (hρ : Function.Injective ρ) (limit : Nat) {turn : Turn}
    (htask : turn.use.task? = some task)
    (haccepted : Source.isAccepted turn.source = true)
    (hshift : Grammar.Shifts ρ (full.nextId - short.nextId) short.nextId
      (Source.read short.nextId turn.source).2) :
    (short.take limit turn = none ∧ full.take limit turn = none) ∨
      ∃ full' short' answer, short.take limit turn = some (short', answer) ∧
        full.take limit turn = some (full', answer.rename ρ) ∧ Tied ρ full' short' ∧
        full'.nextId = (Source.read full.nextId turn.source).2 ∧
        short'.nextId = (Source.read short.nextId turn.source).2 := by
  obtain ⟨full₁, short₁, program, hshort, hfull, htied⟩ := h.prepare hρ haccepted hshift
  have hnextShort := short.nextId_prepare turn.source
  have hnextFull := full.nextId_prepare turn.source
  obtain ⟨_, _, hreadShort, -⟩ := prepare_eq_ok_iff.1 hshort
  obtain ⟨_, _, hreadFull, -⟩ := prepare_eq_ok_iff.1 hfull
  rw [hshort] at hnextShort
  rw [hfull] at hnextFull
  unfold Session.take
  simp only [htask, submit, hshort, hfull, hreadShort, hreadFull, Use.task_rename htask]
  rcases htied.perform limit turn.host (task program) with
    ⟨hnone, hnone'⟩ | ⟨full', short', report, hsome, hsome', htied', hfullId, hshortId⟩
  · exact .inl ⟨by rw [hnone]; rfl, by rw [hnone']; rfl⟩
  · refine .inr ⟨full', short', _, by rw [hsome]; rfl, ?_, htied', ?_, ?_⟩
    · rw [hsome', Option.map_some, Option.map_some, htied'.globalNames]
      obtain ⟨_ | value, output⟩ := report <;> rfl
    · rw [hreadFull] at hnextFull
      exact hfullId.trans hnextFull
    · rw [hreadShort] at hnextShort
      exact hshortId.trans hnextShort

end Tied

end Session

end Treewalk
