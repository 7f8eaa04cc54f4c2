import Treewalk.Proofs.Machine.Leeway
import Treewalk.Proofs.Machine.Supply

/-!
# Two policies for faults

The fault of a capability becomes a value under one policy and an error under the other.
A fault that is a value is an ordinary value from then on: it can be bound, stored,
passed and returned. The policies differ in nothing else, and neither leaves a trace
where no capability faults: `Machine.fault_policies`.

Both invariants in it are stocks. One has every value but no fault among its errors; the
other has every error but no fault among its values.
-/

namespace Treewalk

/-- The same context with another policy for faults. -/
def Context.faulting (ctx : Context) (policy : FaultPolicy) : Context :=
  ctx.configured { ctx.settings with faultPolicy := policy }

namespace RunSettings

private theorem Loosened.of_fault (settings : RunSettings) :
    Loosened { settings with faultPolicy := .error }
      { settings with faultPolicy := .value } where
  breakPolicy := rfl
  depth := Nat.le_refl _
  faults := nofun

/-- Settings that differ in the policy alone differ in faults alone. -/
private theorem kind_of_cuts_fault {settings : RunSettings} {kind : ErrorKind}
    (h : Cuts { settings with faultPolicy := .error }
      { settings with faultPolicy := .value } kind) :
    kind = .nativeFault := by
  cases kind with
  | nativeFault => rfl
  | stackOverflow => exact absurd h (Nat.lt_irrefl _)
  | _ => exact h.elim

end RunSettings

namespace Stock

/-- Everything there is, with faults as values or as errors only where they are let
in. -/
def everything (fault failure : Prop) : Stock where
  code _ := True
  capability _ := True
  ground := 0
  declares _ := True
  assigns _ := True
  fault := fault
  failure := failure

variable {fault failure : Prop}

private theorem everything_suits {ctx : Context}
    (hvalue : ctx.settings.faultPolicy = .value → fault)
    (herror : ctx.settings.faultPolicy = .error → failure) :
    (everything fault failure).Suits ctx where
  fault := hvalue
  failure := herror
  marked := fun _ _ _ _ _ _ _ _ => trivial
  assigns := fun _ _ _ _ _ => trivial

theorem everything_start {heap : Heap} (task : Task)
    (hheap : ∀ value, .value value ∈ heap.contents → value.kind = .fault → fault) :
    (everything fault failure).Supplies (task.machine heap) := by
  refine .of_task (fun content hcontent => ?_) (Nat.zero_le _) ?_
  · obtain ⟨value, rfl⟩ := Heap.value_of_mem_contents hcontent
    exact ⟨fun _ _ _ _ => trivial, fun _ _ => trivial, hheap value hcontent⟩
  · exact covers_flatMap.2 fun stmt _ =>
      covers_stmt.2 ⟨fun _ _ => trivial, fun _ _ _ => trivial⟩

end Stock

namespace Machine

/-- The policies for faults differ on faults only. Where faults are values, no run ends
in an error about one. Where they are errors, a run from a heap without faults comes to
no state that holds one, in scopes, fields or frames, in its control or in what waits.
And a run that does not end in a fault where faults are errors goes through the same
states where they are values. -/
theorem fault_policies (ctx : Context) (heap : Heap) (task : Task) :
    (∀ steps error,
      ((task.machine heap).run (ctx.faulting .value) steps).outcome? =
        some (.error error) →
      error.cause.kind ≠ .nativeFault) ∧
    ((∀ value, .value value ∈ heap.contents → value.kind ≠ .fault) →
      ∀ m value, Reaches (ctx.faulting .error) (task.machine heap) m →
        .value value ∈ m.contents → value.kind ≠ .fault) ∧
    ((∀ steps error,
        ((task.machine heap).run (ctx.faulting .error) steps).outcome? =
          some (.error error) →
        error.cause.kind ≠ .nativeFault) →
      ∀ steps, (task.machine heap).run (ctx.faulting .value) steps =
        (task.machine heap).run (ctx.faulting .error) steps) := by
  refine ⟨?_, ?_, ?_⟩
  · intro steps error houtcome
    have hsuits : (Stock.everything True False).Suits (ctx.faulting .value) :=
      Stock.everything_suits (fun _ => trivial) nofun
    have hstart : (Stock.everything True False).Supplies (task.machine heap) :=
      Stock.everything_start task fun _ _ _ => trivial
    have hcause := (hstart.of_reaches hsuits (.run _ steps _)).control
    rw [control_of_outcome houtcome] at hcause
    exact ne_of_beq_false (eq_false_of_ne_true (Stock.covers_cons.1 hcause).1)
  · intro hheap m value hreaches hmem hfault
    have hsuits : (Stock.everything False True).Suits (ctx.faulting .error) :=
      Stock.everything_suits nofun fun _ => trivial
    have hstart : (Stock.everything False True).Supplies (task.machine heap) :=
      Stock.everything_start task hheap
    have hvalue : (Stock.everything False True).HasValue value :=
      (hstart.of_reaches hsuits hreaches).covers _ hmem
    exact hvalue.fault hfault
  · intro hfaultless steps
    rcases run_eq_or_cut (.of_fault ctx.settings) ctx steps (task.machine heap)
      with hsame | hcut
    · exact hsame
    · obtain ⟨error, herror, hcuts⟩ := hcut
      obtain ⟨more, last, hlast, hcause⟩ :=
        (Reaches.run _ steps _).exists_outcome_of_fail herror
      refine absurd ?_ (hfaultless more last hlast)
      rw [hcause]
      exact RunSettings.kind_of_cuts_fault hcuts

/-- `-fileOpen(1)`, where the capability faults. -/
def unopened : Task :=
  .evaluate (.unary ⟨0, 12⟩ .neg
    (.call ⟨1, 12⟩ 1 (.var ⟨1, 9⟩ 0 "fileOpen") [.literal ⟨10, 11⟩ (.number 1)]))

/-- A host that opens no file. -/
def closedContext : Context :=
  ⟨.frames, ⟨.function, .value, 8⟩, [.clock, .fileOpen], .empty, tickingHost⟩

/-- The policies at a negated fault, at the state in which the argument is passed, and
at a call that does not fault. -/
theorem fault_policies_unopened :
    ((unopened.machine (.start [.clock, .fileOpen])).run
        (closedContext.faulting .value) 8).outcome? =
        some (.error ⟨.negationOf .fault, some ⟨0, 12⟩⟩) ∧
      (Cause.negationOf .fault).kind ≠ .nativeFault ∧
      (∀ value, .value value ∈ ((unopened.machine (.start [.clock, .fileOpen])).run
        (closedContext.faulting .error) 3).contents → value.kind ≠ .fault) ∧
      ((Task.evaluate clockCall).machine (.start [.clock])).run
        (closedContext.faulting .value) 5 =
        ((Task.evaluate clockCall).machine (.start [.clock])).run
        (closedContext.faulting .error) 5 := by
  obtain ⟨asValue, asError, -⟩ :=
    fault_policies closedContext (.start [.clock, .fileOpen]) unopened
  obtain ⟨-, -, same⟩ :=
    fault_policies closedContext (.start [.clock]) (.evaluate clockCall)
  have hend : ((unopened.machine (.start [.clock, .fileOpen])).run
      (closedContext.faulting .value) 8).outcome? =
        some (.error ⟨.negationOf .fault, some ⟨0, 12⟩⟩) := rfl
  have hanswer : (((Task.evaluate clockCall).machine (.start [.clock])).run
      (closedContext.faulting .error) 5).outcome? = some (.ok (some (.number 0))) := rfl
  refine ⟨hend, asValue 8 _ hend, fun value hmem => ?_, same ?_ 5⟩
  · refine asError (fun value hvalue => ?_) _ value (.run _ 3 _) hmem
    obtain ⟨native, -, heq⟩ := Heap.native_of_mem_contents_start hvalue
    cases heq
    exact nofun
  · intro steps error herror
    cases outcome_unique hanswer herror

end Machine

end Treewalk
