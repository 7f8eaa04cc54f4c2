import Treewalk.Proofs.Machine.Lockstep
import Treewalk.Proofs.Scope.Agree
import Treewalk.Proofs.Scope.Coherence

/-!
# Frames are transparent in orderly programs

A name is read from the frame of the call before the scopes. In an orderly program this
makes no difference: the machine that looks names up in the scopes alone goes through
the same states, except for the values in its frames (`Alike`). Names are looked up in
three places only, when a variable is read, when it is assigned and when a call by name
is about to be made; there the frame either has no entry or has a good copy
(`Coherent`). In everything else machines whose frames have the same depth go in step.

## Main results

* `Paired.step`, `Paired.run`: the two machines stay together.
* `Machine.frames_transparent`: they print the same, end the same and leave the same
  heap.
-/

namespace Treewalk

variable {origins : List Origin}

/-- The context of a run that looks at frames first. -/
def Context.framed (ctx : Context) : Context :=
  { ctx with discipline := .frames }

/-- The context of a run that looks at scopes alone. -/
def Context.unframed (ctx : Context) : Context :=
  { ctx with discipline := .scopes }

/-- The states differ in the values of their frames at most. -/
inductive Alike : Machine → Machine → Prop
  | mk {heap : Heap} {output : String} {control : Control} {pending : List Pending}
      {frames frames' : Frames} : frames.depth = frames'.depth →
      Alike ⟨⟨heap, frames, output⟩, control, pending⟩
        ⟨⟨heap, frames', output⟩, control, pending⟩

namespace Alike

variable {m m' : Machine}

theorem outcome? (h : Alike m m') : m.outcome? = m'.outcome? := by
  obtain @⟨heap, output, control, pending, frames, frames', hdepth⟩ := h
  cases pending with
  | nil => cases control <;> rfl
  | cons next pending => cases control <;> rfl

private theorem heap (h : Alike m m') : m.world.heap = m'.world.heap := by
  obtain ⟨hdepth⟩ := h
  rfl

private theorem output (h : Alike m m') : m.world.output = m'.world.output := by
  obtain ⟨hdepth⟩ := h
  rfl

end Alike

/-- Frames of the same depth. -/
def FrameRelation.sameDepth : FrameRelation where
  Rel frames frames' := frames.depth = frames'.depth
  depth h := h
  push h _ := congrArg (· + 1) h
  pop h := congrArg (· - 1) h
  add h _ _ := by simpa [Frames.add] using h
  addAll h _ := by simpa [Frames.addAll] using h

/-- States that are alike are in step. -/
theorem alike_iff_inStep {m m' : Machine} : Alike m m' ↔ InStep .sameDepth m m' := by
  constructor
  · intro h
    obtain ⟨hdepth⟩ := h
    exact .mk hdepth
  · intro h
    obtain ⟨hdepth⟩ := h
    exact .mk hdepth

private theorem Context.peers_unframed (ctx : Context) :
    ctx.framed.Peers ctx.unframed :=
  ⟨rfl, rfl, rfl, rfl⟩

/-! ## Lookups -/

section Lookups

variable {plan : List Site} {origins : List Origin} {ctx : Context} {heap : Heap}
  {frames frames' : Frames} {output : String} {act : Act} {acts : List Act}
  {id : NodeId} {name : String}

/-- A copy says what the scopes say. -/
theorem Copied.read {value : Value} (h : Copied plan heap act name value)
    (hplan : Orderly plan) (hagrees : Agrees plan ctx.resolution)
    (hseated : Seated plan heap act)
    (hsite : ⟨.read id name, act.regions, act.inArguments⟩ ∈ plan) :
    ctx.unframed.read ⟨heap, frames, output⟩ name id act.env = .ok value := by
  obtain ⟨binder, home, -, hhome, hactivation, hslot⟩ := h
  have hdistance : ctx.resolution.distance? id = act.regions.distance? name :=
    hagrees _ hsite id name (.inl rfl)
  obtain ⟨d, hshows, hfound⟩ :=
    hplan.shows hsite (.inl rfl) hhome hactivation hseated.declared
  have hlt : d < (heap.chain act.env).length := by
    have hlength := hshows.length
    rw [hseated.length]
    show d < act.regions.length + 1
    simp only at hlength
    omega
  have hscope : (heap.chain act.env)[d]? = some (heap.chain act.env)[d] :=
    List.getElem?_eq_getElem hlt
  have hvalue := hslot d _ hshows hscope
  have hignored : ctx.unframed.frameValue? ⟨heap, frames, output⟩ name = none := rfl
  have hrecorded : ctx.unframed.resolution.distance? id = act.regions.distance? name :=
    hdistance
  simp only [Context.read, hignored, hrecorded]
  rcases hfound with hd | ⟨hd, hlast⟩
  · have hnear : act.regions.distance? name = some d := hd
    simp only [hnear, Heap.getAt, Heap.ancestor, hscope, hvalue]
  · have hnone : act.regions.distance? name = none := hd
    have hglobal : (heap.chain act.env)[d]? = some globalScope := by
      rw [hlast]
      exact hseated.last
    rw [hglobal] at hscope
    rw [← Option.some.inj hscope] at hvalue
    simp only [hnone, World.readGlobal, hvalue]

private theorem read_eq (hplan : Orderly plan) (hagrees : Agrees plan ctx.resolution)
    (hcoherent : Coherent plan heap frames.list (act :: acts))
    (hsite : ⟨.read id name, act.regions, act.inArguments⟩ ∈ plan) :
    ctx.framed.read ⟨heap, frames, output⟩ name id act.env =
      ctx.unframed.read ⟨heap, frames', output⟩ name id act.env := by
  obtain ⟨frame, rest, hlist, hlinked, -, -⟩ := hcoherent.top
  have hentry : ctx.framed.frameValue? ⟨heap, frames, output⟩ name =
      frame.values.get? name :=
    Frames.get?_of_list hlist name
  cases hvalue : frame.values.get? name with
  | none =>
    simp only [Context.read, hentry, hvalue]
    rfl
  | some value =>
    rw [(hlinked.copies name value hvalue).read hplan hagrees hlinked.seated hsite]
    simp only [Context.read, hentry, hvalue]

private theorem scopeSlot_of_entry (hplan : Orderly plan)
    (hagrees : Agrees plan ctx.resolution)
    (hground : Ground plan origins (act :: acts) ⟨heap, frames, output⟩)
    (hcoherent : Coherent plan heap frames.list (act :: acts))
    (hsite : ⟨.write id name, act.regions, act.inArguments⟩ ∈ plan)
    (hentry : (frames.get? name).isSome = true) :
    ∃ scope, ctx.scopeSlot ⟨heap, frames, output⟩ name id act.env = .ok scope := by
  obtain ⟨frame, rest, hlist, hlinked, -, -⟩ := hcoherent.top
  rw [Frames.get?_of_list hlist] at hentry
  obtain ⟨value, hvalue⟩ := Option.isSome_iff_exists.1 hentry
  rcases hground.scopeSlot hagrees hground.place hsite with
    ⟨scope, hslot, -, -⟩ | ⟨known, -, -, hassigned⟩
  · exact ⟨scope, hslot⟩
  · obtain ⟨scope, hscope⟩ := hassigned.isSome_of_copied hplan hlinked.seated hsite
      (hlinked.copies name value hvalue)
    cases hscope

/-- An assignment finds the same scope, and its frame has an entry only if there is a
scope. -/
private theorem assignsAlike_of_entry (hdepth : frames.depth = frames'.depth)
    {env : ScopeId} (value : Value)
    (hbound : (frames.get? name).isSome = true → ∃ scope,
      ctx.scopeSlot ⟨heap, frames, output⟩ name id env = .ok scope) :
    Machine.AssignsAlike .sameDepth ctx.framed ctx.unframed ⟨heap, frames, output⟩
      ⟨heap, frames', output⟩ name id env value := by
  have hframed : ctx.framed.scopeSlot ⟨heap, frames, output⟩ name id env =
      ctx.scopeSlot ⟨heap, frames, output⟩ name id env := rfl
  have hunframed : ctx.unframed.scopeSlot ⟨heap, frames', output⟩ name id env =
      ctx.scopeSlot ⟨heap, frames, output⟩ name id env := rfl
  have hentry : ctx.framed.frameValue? ⟨heap, frames, output⟩ name = frames.get? name :=
    rfl
  have hignored : ctx.unframed.frameValue? ⟨heap, frames', output⟩ name = none := rfl
  simp only [Machine.AssignsAlike, Context.slots, hframed, hunframed, hentry, hignored]
  cases hslot : ctx.scopeSlot ⟨heap, frames, output⟩ name id env with
  | ok scope =>
    refine .inr ⟨(frames.get? name).isSome, false, some scope, rfl, rfl, ?_⟩
    cases (frames.get? name).isSome with
    | true => exact (Frames.depth_modifyTop _ _).trans hdepth
    | false => exact hdepth
  | error cause =>
    cases hsome : (frames.get? name).isSome with
    | true =>
      obtain ⟨scope, hok⟩ := hbound hsome
      rw [hslot] at hok
      cases hok
    | false => exact .inl ⟨cause, rfl, rfl⟩

private theorem get?_of_arguments (hplan : Orderly plan) {env : ScopeId}
    {regions : Regions}
    (hcoherent : Coherent plan heap frames.list (⟨env, regions, true⟩ :: acts))
    {args : List (Expr × Value)} (hcalled : Called plan (args.map (·.1)))
    (name : String) :
    (frames.addAll (Machine.namedArguments args)).get? name = none := by
  obtain ⟨frame, rest, hlist, hlinked, -, -⟩ := hcoherent.top
  rw [hplan.namedArguments_eq_nil hcalled, Frames.addAll_nil, Frames.get?_of_list hlist,
    hlinked.empty rfl]
  rfl

end Lookups

/-! ## The two machines together -/

/-- Two states that are alike. The first one is of a run that looks at frames, and its
frames are coherent unless it failed. -/
structure Paired (plan : List Site) (m m' : Machine) : Prop where
  alike : Alike m m'
  standing : (∃ error, m.control = .fail error) ∨ ∃ origins acts,
    Standing plan origins acts m ∧ Coherent plan m.world.heap m.world.frames.list acts

section Paired

variable {plan : List Site} {ctx : Context} {m m' : Machine}

/-- In an orderly program the frames and the scopes say the same about a name. -/
private theorem Standing.looksAlike {acts : List Act} (h : Standing plan origins acts m)
    (hcoherent : Coherent plan m.world.heap m.world.frames.list acts)
    (hplan : Orderly plan) (hagrees : Agrees plan ctx.resolution)
    (halike : Alike m m') :
    Machine.LooksAlike .sameDepth ctx.framed ctx.unframed m m' := by
  obtain @⟨heap, output, control, pending, frames, frames', hdepth⟩ := halike
  obtain ⟨hground, hcontrol⟩ := h
  constructor
  · rintro span id name env rfl
    cases hcontrol with
    | eval hsites _ =>
      simp only [Expr.sites, List.cons_subset] at hsites
      exact read_eq hplan hagrees hcoherent hsites.1
    | lookup hread =>
      exact @read_eq plan ctx heap frames frames' output ⟨globalScope, [], false⟩
        [] _ _ hplan hagrees hcoherent hread
  · rintro value span id name env rest rfl rfl
    refine assignsAlike_of_entry hdepth value fun hentry => ?_
    cases hcontrol with
    | value _ hstack =>
      cases hstack with
      | assign hsite _ =>
        exact scopeSlot_of_entry hplan hagrees hground hcoherent hsite hentry
  · rintro value call done current rest span id rfl rfl -
    cases hcontrol with
    | value _ hstack =>
      cases hstack with
      | argument _ _ _ _ hcalled _ =>
        have hall : Called plan (((current, value) :: done).reverse.map (·.1)) := by
          simpa using hcalled
        have hnone := get?_of_arguments hplan hcoherent hall call.name
        simp only [Machine.withArguments, Context.read, Context.frameValue?,
          Context.framed, Context.unframed, hnone]
        rfl

private theorem Standing.alike_step {acts : List Act} (h : Standing plan origins acts m)
    (hcoherent : Coherent plan m.world.heap m.world.frames.list acts)
    (hplan : Orderly plan) (hagrees : Agrees plan ctx.resolution)
    (halike : Alike m m') : Alike (m.step ctx.framed) (m'.step ctx.unframed) :=
  alike_iff_inStep.2 ((alike_iff_inStep.1 halike).step ctx.peers_unframed
    (h.looksAlike hcoherent hplan hagrees halike))

/-- The two machines stay together. -/
theorem Paired.step (h : Paired plan m m') (hplan : Orderly plan)
    (hagrees : Agrees plan ctx.resolution) :
    Paired plan (m.step ctx.framed) (m'.step ctx.unframed) := by
  obtain ⟨halike, ⟨error, herror⟩ | ⟨origins, acts, hstanding, hcoherent⟩⟩ := h
  · obtain ⟨error', herror', -⟩ := Machine.cause_step_of_fail ctx.framed herror
    refine ⟨?_, .inl ⟨error', herror'⟩⟩
    obtain @⟨heap, output, control, pending, frames, frames', hdepth⟩ := halike
    obtain rfl : control = .fail error := herror
    cases pending with
    | nil => exact .mk hdepth
    | cons next pending =>
      cases next with
      | leave span => exact .mk (FrameRelation.sameDepth.pop hdepth)
      | _ => exact .mk hdepth
  · refine ⟨hstanding.alike_step hcoherent hplan hagrees halike, ?_⟩
    have hagrees' : Agrees plan ctx.framed.resolution := hagrees
    rcases hstanding.step hagrees' with ⟨error, herror, -⟩ | ⟨acts', hnext, hpath⟩
    · exact .inl ⟨error, herror⟩
    · exact .inr ⟨_, acts', hnext, hcoherent.path hplan hpath⟩

theorem Paired.run (h : Paired plan m m') (hplan : Orderly plan)
    (hagrees : Agrees plan ctx.resolution) (limit : Nat) :
    Paired plan (m.run ctx.framed limit) (m'.run ctx.unframed limit) := by
  induction limit generalizing m m' with
  | zero => exact h
  | succ limit ih =>
    have hfinal : m.isFinal = m'.isFinal := by
      unfold Machine.isFinal
      rw [h.alike.outcome?]
    unfold Machine.run
    rw [hfinal]
    by_cases hdone : m'.isFinal = true
    · rw [if_pos hdone, if_pos hdone]
      exact h
    · rw [if_neg hdone, if_neg hdone]
      exact ih (h.step hplan hagrees)

end Paired

theorem Coherent.start (plan : List Site) (natives : List Native) :
    Coherent plan (World.start (.start natives)).heap
      (World.start (.start natives)).frames.list [⟨globalScope, [], false⟩] := by
  have hground := Ground.start plan natives
  have hseated : Seated plan (World.start (.start natives)).heap
      ⟨globalScope, [], false⟩ :=
    Place.seated (hground.places _ List.mem_cons_self) hground.size hground.globals
  refine .cons
    ⟨hseated, (fun hargs => by cases hargs), fun name value hvalue => by cases hvalue⟩
    (fun lower hlower => by cases hlower) .nil

namespace Machine

/-- Frames are transparent in orderly programs. Where no argument is a plain variable,
no name is declared twice, assignments stand outside arguments in the body that declares
their target, and local names are mentioned in reach of their declarations, a run that
looks names up in the frame of the call first and one that looks at the scopes alone
print the same, end at the same time in the same way, and leave the same heap, so also
the same global bindings. -/
theorem frames_transparent {firstId next : NodeId} {tokens : List (Located Token)}
    {program : Program} {natives : String → Bool} {enabled : List Native}
    {globals : List String} {ctx : Context} {start : Machine}
    (hparse : parse firstId tokens = (.ok program, next))
    (hresolve : program.resolve natives globals = .ok ctx.resolution)
    (horderly : Orderly program.sites)
    (hstart : start = .ofScript (.start enabled) program ∨
      start = .ofProgram (.start enabled) program) (limit : Nat) :
    (start.run ctx.framed limit).outcome? = (start.run ctx.unframed limit).outcome? ∧
      (start.run ctx.framed limit).world.output =
        (start.run ctx.unframed limit).world.output ∧
      (start.run ctx.framed limit).world.heap =
        (start.run ctx.unframed limit).world.heap := by
  have hagrees := agrees_of_resolve hparse hresolve
  have hstanding := Standing.start (derives_of_parse hparse).formed hstart
  have hworld : start.world = .start (.start enabled) := by
    rcases hstart with rfl | rfl
    · rfl
    · unfold ofProgram
      split <;> rfl
  have hcoherent : Coherent program.sites start.world.heap start.world.frames.list
      [⟨globalScope, [], false⟩] := hworld ▸ Coherent.start program.sites enabled
  have hpaired : Paired program.sites start start := by
    refine ⟨?_, .inr ⟨_, _, hstanding, hcoherent⟩⟩
    obtain ⟨⟨heap, frames, output⟩, control, pending⟩ := start
    exact .mk rfl
  have halike := (hpaired.run horderly hagrees limit).alike
  exact ⟨halike.outcome?, halike.output, halike.heap⟩

/-- `func count() = { var t = 1; { t = t + 1; } return t; } printLine(count());` -/
def counterTokens : List (Located Token) :=
  let tokens : List Token :=
    [.word .func, .ident "count", .sign .lparen, .sign .rparen, .sign .eq,
      .sign .lbrace, .word .var, .ident "t", .sign .eq, .number 1, .sign .semi,
      .sign .lbrace, .ident "t", .sign .eq, .ident "t", .sign .plus, .number 1,
        .sign .semi,
      .sign .rbrace, .word .ret, .ident "t", .sign .semi, .sign .rbrace,
      .word .printLine, .sign .lparen, .ident "count", .sign .lparen, .sign .rparen,
        .sign .rparen,
      .sign .semi]
  tokens.zipIdx.map fun (token, i) => ⟨token, ⟨i, i + 1⟩⟩

/-- `{ t = t + 1; }` -/
def counterBlock : List Stmt :=
  [.expression ⟨12, 18⟩ (.assign ⟨12, 17⟩ 1 "t"
    (.binary ⟨14, 17⟩ (.var ⟨14, 15⟩ 0 "t") .add (.literal ⟨16, 17⟩ (.number 1))))]

def countDecl : FunctionDecl :=
  .mk ⟨"count", ⟨1, 2⟩⟩ []
    [.var ⟨6, 11⟩ ⟨"t", ⟨7, 8⟩⟩ (some (.literal ⟨9, 10⟩ (.number 1))),
      .block ⟨11, 19⟩ counterBlock,
      .ret ⟨19, 22⟩ (some (.var ⟨20, 21⟩ 2 "t"))] ⟨0, 23⟩

/-- The tree of the tokens. -/
def counter : Program :=
  ⟨[.funcDecl ⟨0, 23⟩ countDecl,
    .print ⟨23, 30⟩ true (some (.call ⟨25, 28⟩ 4 (.var ⟨25, 26⟩ 3 "count") []))]⟩

/-- What is resolved about it, with no capabilities and calls nested at most five
times. -/
def counterContext : Context :=
  ⟨.frames, ⟨.function, .value, 5⟩, [],
    .ofNotes [.distance 0 1, .distance 1 1, .distance 2 0], .silent⟩

private theorem sites_counter : counter.sites =
    [⟨.declare .function "count", [], false⟩,
      ⟨.declare .var "t", [⟨.call countDecl, []⟩], false⟩,
      ⟨.read 0 "t", [⟨.block ⟨11, 19⟩ counterBlock, []⟩, ⟨.call countDecl, ["t"]⟩],
        false⟩,
      ⟨.write 1 "t", [⟨.block ⟨11, 19⟩ counterBlock, []⟩, ⟨.call countDecl, ["t"]⟩],
        false⟩,
      ⟨.read 2 "t", [⟨.call countDecl, ["t"]⟩], false⟩,
      ⟨.read 3 "count", [], false⟩, ⟨.call 4 [], [], false⟩] :=
  rfl

theorem orderly_counter : Orderly counter.sites := by
  rw [sites_counter]
  refine ⟨?_, by decide, ?_, ?_⟩
  · simp
  · simp [Site.declared?, Regions.activation, Regions.origins, Origin.isBlock,
      List.dropWhile_cons]
  · simp [Site.declared?, Mention.Refers, Regions.origins, Regions.distance?,
      List.findIdx?_cons]

/-- `count` keeps a copy of `t` in its frame, and changes both from inside a block. -/
theorem frames_transparent_counter :
    let framed := (ofProgram (.start []) counter).run counterContext.framed 31
    let unframed := (ofProgram (.start []) counter).run counterContext.unframed 31
    parse 0 counterTokens = (.ok counter, 5) ∧
      counter.resolve (Native.enabled []) [] = .ok counterContext.resolution ∧
      Orderly counter.sites ∧
      framed.isFinal = true ∧ framed.outcome? = unframed.outcome? ∧
      framed.world.output = unframed.world.output ∧
      framed.world.heap = unframed.world.heap :=
  ⟨rfl, rfl, orderly_counter, rfl,
    @frames_transparent 0 5 counterTokens counter (Native.enabled []) [] []
      counterContext _ rfl rfl orderly_counter (.inr rfl) 31⟩

end Machine

end Treewalk
