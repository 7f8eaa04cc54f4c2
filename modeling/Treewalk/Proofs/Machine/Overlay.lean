import Treewalk.Proofs.Machine.FrameDiscipline
import Treewalk.Proofs.Scope.Transparent

/-!
# Copies left in the global frame

Top-level code runs under one frame, the global frame, and what its declarations put
there stays for the statements after them. A later statement that reads such a name gets
the copy, and not what the scopes hold by then: the copy may be stale. `Machine.Follows`
follows a run together with the names that the present statement has put into the frame
itself, and `Machine.Stale` says that the run is about to use a copy of another
statement against what the scopes say.

Without stale copies, a statement does the same as with an empty global frame. The two
machines differ in the bottom frame alone, which has fewer entries in the second one but
all of the present statement's own (`Overlaid`), and they stay in step:
`Machine.inStep_overlay`.
-/

namespace Treewalk

variable {own : List String} {frames frames' : Frames} {m : Machine}

/-! ## Tables and frames -/

/-- Every entry of the first table is an entry of the second one. -/
def Table.Within (part full : Table Value) : Prop :=
  ∀ (key : String) (value : Value), part.get? key = some value →
    full.get? key = some value

private theorem Table.Within.put {part full : Table Value} (h : part.Within full)
    (name : String) (value : Value) :
    Table.Within (part.put name value) (full.put name value) := by
  intro key found hfound
  by_cases hkey : key = name
  · subst hkey
    rw [Table.get?_put_self] at hfound ⊢
    exact hfound
  · rw [Table.get?_put_of_ne hkey] at hfound ⊢
    exact h key found hfound

theorem Table.Within.putAll (entries : List (String × Value)) :
    ∀ {part full : Table Value}, part.Within full →
      Table.Within (part.putAll entries) (full.putAll entries) := by
  induction entries with
  | nil =>
    intro part full h
    exact h
  | cons entry rest ih =>
    intro part full h
    exact ih (h.put entry.1 entry.2)

/-- The frames are the same, or the same but for the bottom one: there the second one
has a part of the entries of the first one, with the given names among them. -/
def Overlaid (own : List String) (list list' : List Frame) : Prop :=
  list = list' ∨ ∃ upper name full part, list = upper ++ [⟨name, full⟩] ∧
    list' = upper ++ [⟨name, part⟩] ∧ Table.Within part full ∧ ∀ key ∈ own,
      part.has key = true

private theorem Overlaid.modifyTop {own : List String} {f : Table Value → Table Value}
    (hwithin : ∀ {part full : Table Value}, part.Within full →
      Table.Within (f part) (f full))
    (hhas : ∀ {part : Table Value} {key : String}, part.has key = true →
      (f part).has key = true) (h : Overlaid own frames.list frames'.list) :
    Overlaid own (frames.modifyTop f).list (frames'.modifyTop f).list := by
  rcases h with hsame | ⟨upper, name, full, part, hlist, hlist', hpart, hown⟩
  · rw [Frames.eq_of_list_eq hsame]
    exact .inl rfl
  · cases upper with
    | nil =>
      refine .inr ⟨[], name, f full, f part, Frames.list_modifyTop hlist f,
        Frames.list_modifyTop hlist' f, hwithin hpart, fun key hkey =>
          hhas (hown key hkey)⟩
    | cons top upper =>
      exact .inr ⟨⟨top.name, f top.values⟩ :: upper, name, full, part,
        Frames.list_modifyTop hlist f, Frames.list_modifyTop hlist' f, hpart, hown⟩

private theorem Overlaid.own_add {list : List Frame} {name : String} {value : Value}
    (hdepth : frames.depth = 1) (h : Overlaid own list (frames.add name value).list) :
    Overlaid (name :: own) list (frames.add name value).list := by
  rw [frames.depth_eq] at hdepth
  obtain ⟨frame, hframe⟩ := List.length_eq_one_iff.1 hdepth
  have hadd := Frames.list_add hframe name value
  rw [hadd] at h ⊢
  rcases h with hsame | ⟨upper, frameName, full, part, hlist, hlist', hpart, hown⟩
  · exact .inl hsame
  · refine .inr ⟨upper, frameName, full, part, hlist, hlist', hpart, ?_⟩
    cases upper with
    | nil =>
      cases hlist'
      intro key hkey
      rcases List.mem_cons.1 hkey with rfl | hkey
      · simp [Table.has]
      · exact hown key hkey
    | cons top upper =>
      have hlength := congrArg List.length hlist'
      simp at hlength

/-- The first frames are the global frame alone, with a copy of another statement that
the second one does not have; the copy may change. -/
structure Covered (own : List String) (name : String) (frames frames' : Frames) :
  Prop where
  depth : frames.depth = 1
  foreign : name ∉ own
  copy : (frames.get? name).isSome = true
  absent : frames'.get? name = none
  add : ∀ value, Overlaid own (frames.add name value).list frames'.list

/-- A name has the same entry in the top frames, or only a copy in the first one. -/
private theorem Overlaid.get?_eq_or_covered (h : Overlaid own frames.list frames'.list)
    (name : String) :
    frames.get? name = frames'.get? name ∨ Covered own name frames frames' := by
  rcases h with hsame | ⟨upper, frameName, full, part, hlist, hlist', hpart, hown⟩
  · rw [Frames.eq_of_list_eq hsame]
    exact .inl rfl
  cases upper with
  | cons top upper =>
    rw [Frames.get?_of_list hlist, Frames.get?_of_list hlist']
    exact .inl rfl
  | nil =>
    have hget := Frames.get?_of_list hlist name
    have hget' := Frames.get?_of_list hlist' name
    cases hentry : part.get? name with
    | some value =>
      rw [hget, hget', hpart name value hentry, hentry]
      exact .inl rfl
    | none =>
      cases hcopy : full.get? name with
      | none =>
        rw [hget, hget', hcopy, hentry]
        exact .inl rfl
      | some value =>
        refine .inr ⟨by rw [frames.depth_eq, hlist]; rfl, ?_, by rw [hget, hcopy]; rfl,
          by rw [hget', hentry], fun value => ?_⟩
        · intro hname
          have hhas := hown name hname
          rw [Table.has, hentry] at hhas
          cases hhas
        · refine .inr ⟨[], frameName, _, part, Frames.list_add hlist name value,
            hlist', ?_, hown⟩
          intro key found hfound
          have hkey : key ≠ name := by
            rintro rfl
            rw [hentry] at hfound
            cases hfound
          rw [Table.get?_put_of_ne hkey]
          exact hpart key found hfound

/-- Frames that are overlaid. -/
def FrameRelation.overlay (own : List String) : FrameRelation where
  Rel frames frames' := Overlaid own frames.list frames'.list
  depth {frames frames'} h := by
    rw [frames.depth_eq, frames'.depth_eq]
    rcases h with hsame | ⟨upper, name, full, part, hlist, hlist', -, -⟩
    · rw [hsame]
    · rw [hlist, hlist', List.length_append, List.length_append]
      rfl
  push h frameName := by
    rcases h with hsame | ⟨upper, name, full, part, hlist, hlist', hpart, hown⟩
    · exact .inl (by rw [Frames.list_push, Frames.list_push, hsame])
    · exact .inr ⟨⟨frameName, []⟩ :: upper, name, full,
        part, by rw [Frames.list_push, hlist]; rfl, by
        rw [Frames.list_push, hlist']; rfl, hpart, hown⟩
  pop h := by
    rcases h with hsame | ⟨upper, name, full, part, hlist, hlist', hpart, hown⟩
    · exact .inl (by rw [Frames.list_pop, Frames.list_pop, hsame])
    · cases upper with
      | nil => exact .inl (by rw [Frames.list_pop, Frames.list_pop, hlist, hlist']; rfl)
      | cons top upper =>
        exact .inr ⟨upper, name, full, part, by rw [Frames.list_pop, hlist]; rfl,
          by rw [Frames.list_pop, hlist']; rfl, hpart, hown⟩
  add h name value := h.modifyTop (fun hpart => hpart.put name value)
    (fun hhas => @Table.has_putAll _ _ [(name, value)] _ (.inl hhas))
  addAll h entries := h.modifyTop (fun hpart => hpart.putAll entries)
    (fun hhas => Table.has_putAll (.inl hhas))

namespace Machine

variable {ctx : Context} {start : Machine}

/-! ## The names of the present statement -/

/-- The name that a declaration puts into the top frame next. -/
def puts? (m : Machine) : Option String :=
  match m.control, m.pending with
  | .exec (.var _ name none) _, _ => some name.node
  | .exec (.classDecl _ decl) _, _ =>
    if decl.superclass.isNone then some decl.name.node else none
  | .value _, .declare name _ :: _ => some name
  | .value (.cls _), .superclass _ decl _ :: _ => some decl.name.node
  | _, _ => none

/-- Whether a top-level statement has ended and the next one is to follow. -/
def isBetween (m : Machine) : Bool :=
  match m.control, m.pending with
  | .flow _, [.seq _ _] => true
  | _, _ => false

/-- The present statement's own names in the global frame after a transition inside
it. -/
def ownAfter (own : List String) (m : Machine) : List String :=
  if m.world.frames.depth = 1 then m.puts?.toList ++ own else own

/-- The states of a run of top-level statements, each with the names that its statement
has put into the global frame so far. -/
inductive Follows (ctx : Context) (start : Machine) : Machine → List String → Prop
  | start : Follows ctx start start []
  | step {m : Machine} {own : List String} (h : Follows ctx start m own) :
      Follows ctx start (step ctx m) (if m.isBetween then [] else ownAfter own m)

theorem Follows.reaches (h : Follows ctx start m own) : Reaches ctx start m := by
  induction h with
  | start => exact .start
  | step _ ih => exact ih.step

theorem Follows.traced (h : Follows ctx start m own) :
    ∃ origins, Traced ctx start m origins := by
  induction h with
  | start => exact ⟨_, .start⟩
  | step _ ih =>
    obtain ⟨origins, htraced⟩ := ih
    exact ⟨_, htraced.step⟩

/-- Top-level code is about to use a copy that another statement left in the global
frame: to read it although the scopes hold something else, or to assign to it although
the scopes do not bind the name. -/
inductive Stale (ctx : Context) (own : List String) : Machine → Prop
  | read {world : World} {pending : List Pending} {span : Span} {id : NodeId}
      {name : String} {env : ScopeId} {value : Value} (depth : world.frames.depth = 1)
      (foreign : name ∉ own) (copy : world.frames.get? name = some value)
      (differs : ctx.unframed.read world name id env ≠ .ok value) :
      Stale ctx own ⟨world, .eval (.var span id name) env, pending⟩
  | assign {world : World} {pending : List Pending} {span : Span} {id : NodeId}
      {name : String} {env : ScopeId} {value : Value} (depth : world.frames.depth = 1)
      (foreign : name ∉ own) (copy : (world.frames.get? name).isSome = true)
      (unbound : ∀ scope, ctx.scopeSlot world name id env ≠ .ok scope) :
      Stale ctx own ⟨world, .value value, .assign span id name env :: pending⟩

/-- A name that is put into the frame has an entry there after the transition. -/
theorem frames_step_of_puts {ctx : Context} {m : Machine} {name : String}
    (h : m.puts? = some name) :
    ∃ value, (step ctx m).world.frames = m.world.frames.add name value := by
  obtain ⟨⟨heap, frames, output⟩, control, pending⟩ := m
  unfold puts? at h
  dsimp only at h
  split at h
  · cases h
    exact ⟨_, rfl⟩
  · split at h
    · rename_i hnone
      cases h
      rw [Option.isNone_iff_eq_none] at hnone
      simp only [step, execute, hnone]
      exact ⟨_, rfl⟩
    · cases h
  · cases h
    exact ⟨_, rfl⟩
  · cases h
    exact ⟨_, rfl⟩
  · cases h

/-! ## Lookups without stale copies -/

/-- Whoever waits for an argument has the frame of the call on top of the global one. -/
theorem Follows.depth_of_argument {plan : List Site} {acts : List Act}
    (hagrees : Agrees plan ctx.resolution)
    (hstart : Standing plan [.globals] acts start) (h : Follows ctx start m own)
    {value : Value} {call : Call} {done : List (Expr × Value)} {current : Expr}
    {rest : List Expr} {below : List Pending} (hcontrol : m.control = .value value)
    (hpending : m.pending = .argument call done current rest :: below) :
    m.world.frames.depth ≠ 1 := by
  obtain ⟨origins, htraced⟩ := h.traced
  rcases htraced.standing hagrees hstart
    with ⟨acts, hground, hstack⟩ | ⟨error, herror, -⟩
  · rw [hcontrol, hpending] at hstack
    have hdepth := hground.depth
    cases hstack with
    | value _ hstack =>
      cases hstack with
      | argument _ _ _ _ _ _ =>
        rw [Frames.depth_eq, hdepth]
        simp
  · rw [hcontrol] at herror
    cases herror

private theorem frameValue?_of_frames (hframes : ctx.discipline = .frames)
    (world : World) (name : String) :
    ctx.frameValue? world name = world.frames.get? name := by
  rw [Context.frameValue?, hframes]

section Lookups

variable {ctx : Context} {own : List String} {heap : Heap} {frames frames' : Frames}
  {output : String} {name : String} {id : NodeId} {env : ScopeId}
  (hframes : ctx.discipline = .frames) (h : Overlaid own frames.list frames'.list)

include hframes h

private theorem read_overlaid
    (hfresh : Covered own name frames frames' → ∀ value, frames.get? name = some value →
      ctx.unframed.read ⟨heap, frames, output⟩ name id env = .ok value) :
    ctx.read ⟨heap, frames, output⟩ name id env = ctx.read ⟨heap, frames', output⟩ name
      id env := by
  have hvalue := frameValue?_of_frames hframes ⟨heap, frames, output⟩ name
  have hvalue' := frameValue?_of_frames hframes ⟨heap, frames', output⟩ name
  rcases h.get?_eq_or_covered name with hsame | hcovered
  · simp only [Context.read, hvalue, hvalue', hsame]
    rfl
  · obtain ⟨value, hcopy⟩ := Option.isSome_iff_exists.1 hcovered.copy
    have hscopes := hfresh hcovered value hcopy
    have hread : ctx.read ⟨heap, frames', output⟩ name id env =
        ctx.unframed.read ⟨heap, frames, output⟩ name id env := by
      have hignored : ctx.unframed.frameValue? ⟨heap, frames, output⟩ name = none := rfl
      simp only [Context.read, hvalue', hcovered.absent, hignored]
      rfl
    rw [hread, hscopes]
    simp only [Context.read, hvalue, hcopy]

/-- A variable is assigned alike, if a copy in the first frame alone comes with a scope
to assign in. -/
theorem assignsAlike_overlaid (value : Value)
    (hfresh : Covered own name frames frames' →
      ∃ scope, ctx.scopeSlot ⟨heap, frames, output⟩ name id env = .ok scope) :
    AssignsAlike (.overlay own) ctx ctx ⟨heap, frames, output⟩ ⟨heap, frames', output⟩
      name id env value := by
  have hvalue := frameValue?_of_frames hframes ⟨heap, frames, output⟩ name
  have hvalue' := frameValue?_of_frames hframes ⟨heap, frames', output⟩ name
  have hslot' : ctx.scopeSlot ⟨heap, frames', output⟩ name id env =
      ctx.scopeSlot ⟨heap, frames, output⟩ name id env := rfl
  simp only [AssignsAlike, Context.slots, hvalue, hvalue', hslot']
  rcases h.get?_eq_or_covered name with hsame | hcovered
  · rw [hsame]
    have hrel : ∀ frame : Bool, Overlaid own
      (if frame then frames.add name value else frames).list
        (if frame then frames'.add name value else frames').list := by
      intro frame
      cases frame with
      | true => exact (FrameRelation.overlay own).add h name value
      | false => exact h
    cases ctx.scopeSlot ⟨heap, frames, output⟩ name id env with
    | ok scope => exact .inr ⟨_, _, _, rfl, rfl, hrel _⟩
    | error cause =>
      cases (frames'.get? name).isSome with
      | true => exact .inr ⟨true, true, none, rfl, rfl, hrel true⟩
      | false => exact .inl ⟨cause, rfl, rfl⟩
  · obtain ⟨scope, hscope⟩ := hfresh hcovered
    rw [hscope, hcovered.copy, hcovered.absent]
    exact .inr ⟨true, false, some scope, rfl, rfl, hcovered.add value⟩

end Lookups

/-! ## In step without stale copies -/

section Steps

variable {ctx : Context} {own : List String} {m m' : Machine}
  (hframes : ctx.discipline = .frames) (h : InStep (.overlay own) m m')
  (hfresh : ¬m.Stale ctx own)
  (hargument : ∀ value call done current rest below, m.control = .value value →
    m.pending = .argument call done current rest :: below → m.world.frames.depth ≠ 1)

include hframes h hfresh hargument

private theorem looksAlike_overlay : LooksAlike (.overlay own) ctx ctx m m' := by
  obtain @⟨heap, output, control, pending, frames, frames', hrel⟩ := h
  constructor
  · rintro span id name env rfl
    refine read_overlaid hframes hrel fun hcovered value hcopy => ?_
    refine Classical.byContradiction fun hdiffers => ?_
    exact hfresh (.read hcovered.depth hcovered.foreign hcopy hdiffers)
  · rintro value span id name env rest rfl rfl
    refine assignsAlike_overlaid hframes hrel value fun hcovered => ?_
    refine Classical.byContradiction fun hunbound => ?_
    exact hfresh (.assign hcovered.depth hcovered.foreign hcovered.copy
      fun scope hscope => hunbound ⟨scope, hscope⟩)
  · rintro value call done current rest span id rfl rfl -
    have hdepth := hargument value call done current [] rest rfl rfl
    -- The arguments go into the frame of the call, which is not the global one.
    refine read_overlaid hframes ((FrameRelation.overlay own).addAll hrel _)
      fun hcovered => ?_
    exact absurd ((Frames.depth_modifyTop _ _).symm.trans hcovered.depth) hdepth

/-- One transition of both machines; what it puts into the global frame is the
statement's own. -/
theorem inStep_overlay :
    InStep (.overlay (ownAfter own m)) (step ctx m) (step ctx m') := by
  have hstep :=
    h.step ⟨rfl, rfl, rfl, rfl⟩ (looksAlike_overlay hframes h hfresh hargument)
  unfold ownAfter
  split
  · rename_i hdepth
    cases hputs : m.puts? with
    | none => exact hstep
    | some name =>
      have hputs' : m'.puts? = some name := by
        rw [← hputs]
        unfold puts?
        rw [h.control, h.pending]
      obtain ⟨value, hvalue⟩ := @frames_step_of_puts ctx _ _ hputs'
      have hdepth' : m'.world.frames.depth = 1 :=
        ((FrameRelation.overlay own).depth h.related).symm.trans hdepth
      generalize step ctx m = next at hstep ⊢
      generalize step ctx m' = next' at hstep hvalue ⊢
      obtain @⟨heap, output, control, pending, frames, frames', hrel⟩ := hstep
      obtain rfl : frames' = m'.world.frames.add name value := hvalue
      exact .mk (Overlaid.own_add hdepth' hrel)
  · exact hstep

end Steps

end Machine

end Treewalk
