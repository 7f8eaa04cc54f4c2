import Treewalk.Proofs.Machine.Growth

/-!
# Runs up to an outcome

Evaluating an expression, or executing a statement, means running the machine until an
outcome is handed to what was pending before. `Machine.Delivers` is this run: it ends
the first time that the entries above `base` are used up and there is an outcome.
Evaluations nest, so such a run splits at every `base` in between (`Delivers.split`).

While it lasts, the frames above the given ones are those of calls that began in it
(`Grown.step`), so when it ends none is left: `Delivers.retouched`.
-/

namespace Treewalk.Machine

open List

variable {m final : Machine} {ctx : Context} {limit : Nat} {base : List Pending}
  {error : RuntimeError} {P : Machine → Prop} {top : List Pending} {middle : Machine}
  {entry : Pending} {frames : List Frame}

/-! ## Delivery -/

/-- The run from a machine to the first state in which an outcome is handed to
`base`. -/
inductive Delivers (ctx : Context) (base : List Pending) : Machine → Machine →
  Prop where
  | here {m : Machine} (outcome : m.control.isOutcome = true)
      (pending : m.pending = base) :
      Delivers ctx base m m
  | later {m final : Machine}
      (running : ¬(m.control.isOutcome = true ∧ m.pending = base))
      (run : Delivers ctx base (step ctx m) final) : Delivers ctx base m final

namespace Delivers

variable {ctx : Context} {base : List Pending} {m final : Machine}

theorem outcome (h : Delivers ctx base m final) : final.control.isOutcome = true := by
  induction h with
  | here outcome _ => exact outcome
  | later _ _ ih => exact ih

theorem pending (h : Delivers ctx base m final) : final.pending = base := by
  induction h with
  | here _ pending => exact pending
  | later _ _ ih => exact ih

/-- What every transition before the end keeps, the end has. -/
theorem keeps
    (hstep : ∀ m, P m → ¬(m.control.isOutcome = true ∧ m.pending = base) →
      P (step ctx m)) (h : Delivers ctx base m final) (hm : P m) : P final := by
  induction h with
  | here _ _ => exact hm
  | later running _ ih => exact ih (hstep _ hm running)

end Delivers

/-- A run has ended when an outcome is handed to no entry at all. -/
theorem isFinal_iff :
    m.isFinal = true ↔ m.control.isOutcome = true ∧ m.pending = [] := by
  obtain ⟨world, control, pending⟩ := m
  cases pending with
  | nil => cases control <;> simp [isFinal, outcome?, Control.isOutcome]
  | cons entry rest => cases control <;> simp [isFinal, outcome?]

/-- A run that ends delivers to no entry at all. -/
theorem Delivers.of_run (h : (m.run ctx limit).isFinal = true) :
    Delivers ctx [] m (m.run ctx limit) := by
  induction limit generalizing m with
  | zero => exact .here (isFinal_iff.1 h).1 (isFinal_iff.1 h).2
  | succ limit ih =>
    unfold run at h ⊢
    split
    · rename_i hfinal
      exact .here (isFinal_iff.1 hfinal).1 (isFinal_iff.1 hfinal).2
    · rename_i hrunning
      rw [if_neg hrunning] at h
      exact .later (fun hend => hrunning (isFinal_iff.2 hend)) (ih h)

/-- A run that has ended within a limit ends in the same state within a higher one. -/
theorem run_eq_of_le {limit' : Nat} (hle : limit ≤ limit')
    (h : (m.run ctx limit).isFinal = true) :
    m.run ctx limit' = m.run ctx limit := by
  induction limit generalizing m limit' with
  | zero =>
    have hfinal : m.isFinal = true := h
    cases limit' with
    | zero => rfl
    | succ limit' => exact if_pos hfinal
  | succ limit ih =>
    obtain ⟨more, rfl⟩ : ∃ more, limit' = more + 1 := ⟨limit' - 1, by omega⟩
    unfold run at h ⊢
    by_cases hfinal : m.isFinal = true
    · rw [if_pos hfinal, if_pos hfinal]
    · rw [if_neg hfinal] at h ⊢
      rw [if_neg hfinal]
      exact ih (by omega) h

/-- A run has one outcome. -/
theorem outcome_unique {limit' : Nat}
    {outcome outcome' : Except RuntimeError (Option Value)}
    (h : (m.run ctx limit).outcome? = some outcome)
    (h' : (m.run ctx limit').outcome? = some outcome') :
    outcome = outcome' := by
  have hfinal : (m.run ctx limit).isFinal = true := by rw [isFinal, h]; rfl
  have hfinal' : (m.run ctx limit').isFinal = true := by rw [isFinal, h']; rfl
  have hsame : m.run ctx limit = m.run ctx limit' := by
    rcases Nat.le_total limit limit' with hle | hle
    · exact (run_eq_of_le hle hfinal).symm
    · exact run_eq_of_le hle hfinal'
  rw [hsame, h'] at h
  exact (Option.some.inj h).symm

/-- A run goes on from where it has come to. -/
theorem run_add (ctx : Context) (limit more : Nat) (m : Machine) :
    m.run ctx (limit + more) = (m.run ctx limit).run ctx more := by
  induction limit generalizing m with
  | zero => rw [Nat.zero_add, run]
  | succ limit ih =>
    rw [Nat.add_right_comm, run, run]
    by_cases hfinal : m.isFinal = true
    · rw [if_pos hfinal, if_pos hfinal]
      exact (run_eq_of_le (Nat.zero_le more) hfinal).symm
    · rw [if_neg hfinal, if_neg hfinal]
      exact ih _

/-- What is delivered to no entry at all is the end of a run. -/
theorem Delivers.exists_run (h : Delivers ctx [] m final) :
    ∃ limit, m.run ctx limit = final := by
  induction h with
  | here _ _ => exact ⟨0, rfl⟩
  | later running _ ih =>
    obtain ⟨limit, hlimit⟩ := ih
    refine ⟨limit + 1, ?_⟩
    rw [run, if_neg fun hfinal => running (isFinal_iff.1 hfinal)]
    exact hlimit

/-- Entries below the first one stay until an outcome is handed to them. -/
theorem step_suffix (h : base <:+ m.pending)
    (running : ¬(m.control.isOutcome = true ∧ m.pending = base)) :
    base <:+ (step ctx m).pending := by
  have hbelow : ∀ {entry rest}, m.control.isOutcome = true → m.pending = entry :: rest →
      base <:+ rest := by
    intro entry rest outcome first
    rw [first] at h
    rcases suffix_cons_iff.1 h with hsame | hrest
    · exact absurd ⟨outcome, first.trans hsame.symm⟩ running
    · exact hrest
  cases step_moves ctx m with
  | starts _ leads =>
    obtain ⟨new, -, -, hpending, -⟩ := leads.grown
    rw [hpending]
    exact h.trans (suffix_append _ _)
  | hands outcome first _ leads =>
    obtain ⟨new, -, -, hpending, -⟩ := leads.grown
    rw [hpending]
    exact (hbelow outcome first).trans (suffix_append _ _)
  | leaves outcome first popped _ =>
    rw [popped]
    exact hbelow outcome first
  | rests same =>
    rw [same]
    exact h

/-- What has not arrived takes a transition. -/
theorem Delivers.next (h : Delivers ctx base m final) (hpending : m.pending ≠ base) :
    Delivers ctx base (step ctx m) final := by
  cases h with
  | here _ pending => exact absurd pending hpending
  | later _ run => exact run

/-- What has arrived goes no further. -/
theorem Delivers.eq_of_arrived (h : Delivers ctx base m final)
    (outcome : m.control.isOutcome = true) (pending : m.pending = base) :
    final = m := by
  cases h with
  | here _ _ => rfl
  | later running _ => exact absurd ⟨outcome, pending⟩ running

/-- A run delivers one outcome. -/
theorem Delivers.unique {final' : Machine} (h : Delivers ctx base m final)
    (h' : Delivers ctx base m final') :
    final = final' := by
  induction h with
  | here outcome pending => exact (h'.eq_of_arrived outcome pending).symm
  | later running _ ih =>
    cases h' with
    | here outcome pending => exact absurd ⟨outcome, pending⟩ running
    | later _ run => exact ih run

/-- Where a transition in one context can be exchanged for one in another, whole
deliveries can. -/
theorem Delivers.exchange {ctx' : Context} (hkeeps : ∀ m, P m → P (step ctx m))
    (hstep : ∀ m, P m → base <:+ m.pending → Delivers ctx' base (step ctx m) final →
      Delivers ctx' base (step ctx' m) final) (h : Delivers ctx base m final) (hm : P m)
    (habove : base <:+ m.pending) :
    Delivers ctx' base m final := by
  induction h with
  | here outcome pending => exact .here outcome pending
  | later running _ ih =>
    exact .later running
      (hstep _ hm habove (ih hstep (hkeeps _ hm) (step_suffix habove running)))

/-- A delivery to `base` from above further entries first delivers to these. -/
theorem Delivers.through (h : Delivers ctx base m final) (htop : base <:+ top)
    (habove : top <:+ m.pending) :
    ∃ middle, Delivers ctx top m middle ∧ Delivers ctx base middle final := by
  induction h with
  | @here m outcome pending =>
    have hsame : top = base := (pending ▸ habove).eq_of_length_le htop.length_le
    exact ⟨m, .here outcome (pending.trans hsame.symm), .here outcome pending⟩
  | @later m final running run ih =>
    by_cases hhere : m.control.isOutcome = true ∧ m.pending = top
    · exact ⟨m, .here hhere.1 hhere.2, .later running run⟩
    · obtain ⟨middle, hmiddle, hfinal⟩ := ih (step_suffix habove hhere)
      exact ⟨middle, .later hhere hmiddle, hfinal⟩

/-- A delivery to further entries, and from there to `base`, is one to `base`. -/
theorem Delivers.trans (h : Delivers ctx top m middle) (htop : base <:+ top)
    (habove : top <:+ m.pending) (hnext : Delivers ctx base middle final) :
    Delivers ctx base m final := by
  induction h with
  | here _ _ => exact hnext
  | @later m middle running _ ih =>
    refine .later (fun hend => running ⟨hend.1, ?_⟩)
      (ih (step_suffix habove running) hnext)
    have hsame : top = base := (hend.2 ▸ habove).eq_of_length_le htop.length_le
    rw [hend.2, hsame]

/-- A delivery to `base` from above a further entry first delivers to that entry. -/
theorem Delivers.split (h : Delivers ctx base m final)
    (habove : entry :: base <:+ m.pending) :
    ∃ middle, Delivers ctx (entry :: base) m middle ∧
      Delivers ctx base (step ctx middle) final := by
  obtain ⟨middle, hmiddle, hfinal⟩ := h.through (suffix_cons entry base) habove
  refine ⟨middle, hmiddle, hfinal.next ?_⟩
  rw [hmiddle.pending]
  exact cons_ne_self entry base

/-- A delivery to a further entry, and from there to `base`, is one to `base`. -/
theorem Delivers.join (h : Delivers ctx (entry :: base) m middle)
    (habove : entry :: base <:+ m.pending)
    (hnext : Delivers ctx base (step ctx middle) final) :
    Delivers ctx base m final := by
  refine h.trans (suffix_cons entry base) habove (.later (fun hend => ?_) hnext)
  exact cons_ne_self entry base (h.pending.symm.trans hend.2)

/-! ## Errors -/

/-- A failed run goes on to fail for the same reason. -/
theorem cause_step_of_fail (ctx : Context) (h : m.control = .fail error) :
    ∃ error', (m.step ctx).control = .fail error' ∧ error'.cause = error.cause := by
  obtain ⟨⟨heap, frames, output⟩, control, pending⟩ := m
  obtain rfl : control = .fail error := h
  cases pending with
  | nil => exact ⟨error, rfl, rfl⟩
  | cons next pending =>
    cases next with
    | leave span =>
      cases span with
      | none => exact ⟨error, rfl, rfl⟩
      | some span => exact ⟨error.locate span, rfl, by cases error; rfl⟩
    | _ => exact ⟨error, rfl, rfl⟩

theorem cause_run_of_fail (ctx : Context) (limit : Nat) (h : m.control = .fail error) :
    ∃ error', (m.run ctx limit).control = .fail error' ∧
      error'.cause = error.cause := by
  induction limit generalizing m error with
  | zero => exact ⟨error, h, rfl⟩
  | succ limit ih =>
    unfold run
    split
    · exact ⟨error, h, rfl⟩
    · obtain ⟨error', herror', hcause⟩ := cause_step_of_fail ctx h
      obtain ⟨last, hlast, hlast_cause⟩ := ih herror'
      exact ⟨last, hlast, hlast_cause.trans hcause⟩

private theorem pending_step_of_fail (ctx : Context) (h : m.control = .fail error) :
    (m.step ctx).pending = m.pending.tail := by
  obtain ⟨world, control, pending⟩ := m
  obtain rfl : control = .fail error := h
  cases pending with
  | nil => rfl
  | cons next pending => cases next <;> rfl

/-- A failed run ends, with an error for the same reason. -/
theorem exists_outcome_of_fail (ctx : Context) (h : m.control = .fail error) :
    ∃ limit error', (m.run ctx limit).outcome? = some (.error error') ∧
      error'.cause = error.cause := by
  generalize hpending : m.pending = pending
  induction pending generalizing m error with
  | nil =>
    obtain ⟨world, control, _⟩ := m
    obtain rfl : control = .fail error := h
    subst hpending
    exact ⟨0, error, rfl, rfl⟩
  | cons next pending ih =>
    obtain ⟨error', herror', hcause⟩ := cause_step_of_fail ctx h
    have htail : (m.step ctx).pending = pending := by
      rw [pending_step_of_fail ctx h, hpending, tail_cons]
    obtain ⟨limit, last, hlast, hlast_cause⟩ := ih herror' htail
    refine ⟨limit + 1, last, ?_, hlast_cause.trans hcause⟩
    rw [run, if_neg]
    · exact hlast
    · intro hfinal
      have hnil := (isFinal_iff.1 hfinal).2
      rw [hpending] at hnil
      cases hnil

/-! ## Frames of calls under way -/

/-- A transition before the end of a delivery to `base`: what has grown on top of `base`
is still all that there is on top of it. -/
theorem Grown.step (h : Grown ctx.settings.maxCallDepth base frames m)
    (running : ¬(m.control.isOutcome = true ∧ m.pending = base)) :
    Grown ctx.settings.maxCallDepth base frames (step ctx m) := by
  obtain ⟨above, inner, touched, hpending, hframes, hlength, htouched, hbounded⟩ := h
  rw [hframes] at hbounded
  cases step_moves ctx m with
  | starts _ leads =>
    have grown := leads.grown
    rw [hpending, hframes] at grown
    exact Grown.trans _ _ hlength htouched hbounded grown
  | @hands entry rest outcome first stays leads =>
    have grown := leads.grown
    cases above with
    | nil => exact absurd ⟨outcome, hpending⟩ running
    | cons entry' above =>
      rw [hpending, cons_append, List.cons.injEq] at first
      obtain ⟨rfl, rfl⟩ := first
      rw [leaves_cons_of_not_leave stays] at hlength
      rw [hframes] at grown
      exact Grown.trans _ _ hlength htouched hbounded grown
  | @leaves span rest control outcome first popped _ =>
    cases above with
    | nil => exact absurd ⟨outcome, hpending⟩ running
    | cons entry' above =>
      rw [hpending, cons_append, List.cons.injEq] at first
      obtain ⟨rfl, rfl⟩ := first
      rw [leaves_cons_leave] at hlength
      cases inner with
      | nil => cases hlength
      | cons frame inner =>
        have hpop : m.world.frames.pop.list = inner ++ touched := by
          rw [Frames.list_pop, hframes]
          rfl
        rw [popped]
        refine ⟨above, inner, touched, rfl, hpop, Nat.succ.inj hlength, htouched, ?_⟩
        rw [hpop]
        exact Nat.le_trans (Nat.le_succ _) hbounded
  | rests same =>
    rw [same]
    exact ⟨above, inner, touched, hpending, hframes, hlength, htouched,
      hframes ▸ hbounded⟩

private theorem Grown.retouched_of_pending (h : Grown limit base frames m)
    (hbase : m.pending = base) :
    Retouched AnyValues frames m.world.frames.list := by
  obtain ⟨above, inner, touched, hpending, hframes, hlength, htouched, -⟩ := h
  rw [hbase, self_eq_append_left] at hpending
  rw [hpending, leaves_nil, length_eq_zero_iff] at hlength
  rw [hframes, hlength]
  exact htouched

/-- Whatever has grown on top of `base` and `frames`, when an outcome is handed to
`base` the frames are the given ones, except that the top one may have other values. -/
theorem Delivers.retouched (h : Delivers ctx base m final)
    (hm : Grown ctx.settings.maxCallDepth base frames m) :
    Retouched AnyValues frames final.world.frames.list :=
  (h.keeps (fun _ hgrown running => hgrown.step running) hm).retouched_of_pending
    h.pending

/-! ## Calls -/

/-- A state from which the machine does not move on delivers only to what it is at. -/
theorem Delivers.of_still (h : Delivers ctx base m final) (still : step ctx m = m) :
    final = m := by
  induction h with
  | here _ _ => rfl
  | @later m final running run ih =>
    rw [still] at ih
    have hfinal := ih still
    rw [← hfinal] at running
    exact absurd ⟨run.outcome, run.pending⟩ running

/-- The machine does not stay where something is left to be done. -/
theorem Delivers.not_still (h : Delivers ctx base m final) (still : step ctx m = m)
    (pending : m.pending = entry :: base) : False := by
  have hbase := h.pending
  rw [h.of_still still, pending] at hbase
  exact cons_ne_self _ _ hbase

/-- An outcome handed to the end of a call is handed on with the frame of the call
gone. -/
theorem Delivers.leave {span : Option Span} (outcome : middle.control.isOutcome = true)
    (pending : middle.pending = .leave span :: base)
    (h : Delivers ctx base (step ctx middle) final) :
    final.world.frames = middle.world.frames.pop := by
  cases step_moves ctx middle with
  | starts running _ =>
    rw [running] at outcome
    cases outcome
  | hands _ first stays _ =>
    rw [pending, List.cons.injEq] at first
    rw [← first.1] at stays
    cases stays
  | leaves _ first popped handed =>
    rw [pending, List.cons.injEq] at first
    rw [popped, ← first.2] at h
    have hfinal := h.eq_of_arrived (by obtain ⟨_, rfl⟩ | ⟨_, rfl⟩ := handed <;> rfl) rfl
    rw [hfinal]
  | rests same =>
    rw [same] at h
    exact (h.not_still same pending).elim

end Treewalk.Machine
