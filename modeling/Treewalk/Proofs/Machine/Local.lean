import Treewalk.Proofs.Machine.Bounds
import Treewalk.Proofs.Machine.Writes

/-!
# Calls change only what they can reach

A call starts from the global scope, the value that is called and its arguments. What it
can come to from there, and what it makes, is a territory that it does not leave; so
every scope and every instance outside is as before when the call has ended, whichever
way it ended.

Two activations of one function have scopes side by side, and no environment sees both.
So code that sees one of them never writes to what the other one captured, even where it
could call a function that does.

`Machine.calls_local` states both.
-/

namespace Treewalk.Machine

open List

open Territory

variable {old : Heap} {land : Territory old} {pending : List Pending} {world : World}
  {ctx : Context} {function : Function} {env : ScopeId} {base : List Pending}
  {m : Machine}

/-! ## Whole calls -/

private theorem Delivers.governs {final : Machine} (h : Delivers ctx base m final)
    (hm : ∃ origins, (land.regime base).Governs origins m) :
    ∃ origins, (land.regime base).Governs origins final := by
  refine keeps (P := fun m => ∃ origins, (land.regime base).Governs origins m) ?_ h hm
  rintro m ⟨origins, hgoverns⟩ running
  refine ⟨_, hgoverns.step (land.upheld base ctx) (fun houtcome hpending => ?_)
    fun _ _ _ _ => trivial⟩
  exact absurd ⟨houtcome, hpending⟩ running

/-- The cells that a call starts from: the global scope, and what is called with
what. -/
def callRoots (callee : Value) (args : List Value) : List Cell :=
  .scope globalScope :: (callee.cells ++ args.flatMap Value.cells)

/-- A call whose frame holds its arguments at most leaves the heap confined to what it
can reach. -/
private theorem Delivers.confines_of_invoke {name : String} {callee : Value}
    {args : List Value} {final : Machine}
    (hframe : ∀ frame, world.frames.top? = some frame → ∀ entry ∈ frame.values,
      entry.2 ∈ args)
    (h : Delivers ctx base (invoke world base name callee args) final) :
    (world.heap.territory
      (mem_cons_self : .scope globalScope ∈ callRoots callee args)).Confines
      final.world.heap := by
  generalize hland :
    world.heap.territory (mem_cons_self : .scope globalScope ∈ callRoots callee args) =
      land
  have hroots : ∀ cell ∈ callRoots callee args, land.Has cell := by
    intro cell hcell
    subst hland
    exact .inl (.root hcell)
  have hcallee : land.Holds callee := fun cell hcell =>
    hroots cell (mem_cons_of_mem _ (mem_append_left _ hcell))
  have hargs : ∀ arg ∈ args, land.Holds arg := fun arg harg cell hcell =>
    hroots cell
      (mem_cons_of_mem _ (mem_append_right _ (mem_flatMap.2 ⟨arg, harg, hcell⟩)))
  have hworld : land.Contains 1 world := by
    refine ⟨hland ▸ world.heap.confines_territory _, fun frame htop entry hentry => ?_⟩
    refine hargs _ (hframe frame ?_ entry hentry)
    cases hlist : world.frames.list with
    | nil => simp [hlist] at htop
    | cons top rest =>
      rw [hlist] at htop
      rw [Frames.top?, hlist, mem_singleton.1 htop]
      rfl
  have hstart : (land.regime base).world (leaves base) [] world := by
    refine ⟨Nat.le_refl _, ?_⟩
    rw [Nat.sub_self]
    exact hworld
  obtain ⟨_, hfinal⟩ :=
    h.governs
    ⟨_, Regime.after_invoke (land.upheld base ctx) hstart ⟨[], rfl, forall_mem_nil _⟩
      name hcallee hargs⟩
  exact hfinal.world.2.heap

/-! ## Activations -/

/-- The scope was made for a call of the function: it stands directly inside what the
function closes over. -/
structure Activation (heap : Heap) (function : Function) (env : ScopeId) : Prop where
  closure : function.closure < heap.scopes.size
  chain : heap.chain env = env :: heap.chain function.closure

theorem Activation.lt_size {heap : Heap} (h : Activation heap function env) :
    env < heap.scopes.size :=
  Heap.lt_size_of_chain (by rw [h.chain]; exact cons_ne_nil _ _)

private theorem Activation.reaches {m' : Machine}
    (h : Activation m.world.heap function env) (hm : Reaches ctx m m') :
    Activation m'.world.heap function env where
  closure := Nat.lt_of_lt_of_le h.closure hm.size_le
  chain := by rw [hm.chain h.lt_size, hm.chain h.closure, h.chain]

private theorem activation_callFunction (args : List Value)
    (hclosure : function.closure < world.heap.scopes.size) :
    Activation (callFunction world pending function args).world.heap function
      world.heap.scopes.size where
  closure := by
    simp only [callFunction, Heap.makeChild, Heap.makeScope, Array.size_push]
    exact Nat.lt_succ_of_lt hclosure
  chain := Heap.chain_makeChild hclosure _

private theorem Activation.globalScope_not_sees {heap : Heap} (hnested : heap.Nested)
    (h : Activation heap function env) :
    env ∉ heap.chain globalScope := by
  intro hsees
  obtain rfl : env = globalScope := Nat.le_zero.1 (hnested.le _ _ hsees)
  have hmem : function.closure ∈ heap.chain globalScope := by
    rw [h.chain]
    refine mem_cons_of_mem _ ?_
    simp [Heap.chain, Array.getElem?_eq_getElem h.closure]
  have hsame : function.closure = globalScope := Nat.le_zero.1 (hnested.le _ _ hmem)
  have hchain := h.chain
  rw [hsame] at hchain
  exact absurd hchain.symm (cons_ne_self _ _)

/-- Code that sees one activation of a function does not write to what another one
captured. -/
private theorem writer_of_captured {m' : Machine} (hnested : m.world.heap.Nested)
    {mine other captured : ScopeId} (hne : mine ≠ other)
    (hmine : Activation m.world.heap function mine)
    (hother : Activation m.world.heap function other)
    (hcaptured : other ∈ m.world.heap.chain captured) (hm : Reaches ctx m m')
    (hchanged : m'.world.heap.bindings captured ≠ m.world.heap.bindings captured) :
    ∃ middle env, Reaches ctx m middle ∧ middle.writer? = some env ∧
      captured ∈ middle.world.heap.chain env ∧ mine ∉ middle.world.heap.chain env := by
  have hmade : captured < m.world.heap.scopes.size :=
    Heap.lt_size_of_chain (ne_nil_of_mem hcaptured)
  obtain ⟨middle, hmiddle, env, hwriter, hsight⟩ :=
    hm.writer_of_bindings_ne hmade hchanged
  have hnested' := hmiddle.nested hnested
  have hkept := hmiddle.chain hmade
  rw [← hkept] at hcaptured
  have hsees : captured ∈ middle.world.heap.chain env := by
    rcases hsight with rfl | hsees | rfl
    · have hself : captured < middle.world.heap.scopes.size :=
        Nat.lt_of_lt_of_le hmade hmiddle.size_le
      simp [Heap.chain, Array.getElem?_eq_getElem hself]
    · exact hsees
    · exact absurd hcaptured ((hother.reaches hmiddle).globalScope_not_sees hnested')
  refine ⟨middle, env, hmiddle, hwriter, hsees, fun hmineSeen => hne ?_⟩
  have hotherSeen := (hnested'.suffix env captured hsees).subset hcaptured
  exact hnested'.eq_of_sees (hmine.reaches hmiddle).chain
    (hother.reaches hmiddle).chain hmineSeen hotherSeen

/-! ## Locality -/

/-- What a call can reach from the global scope, its callee and its arguments is all
that it changes, if its frame holds nothing but arguments. Every call of a function has
an activation; in a session, what one activation captured is written to only by code
that does not see another activation of the function. -/
theorem calls_local :
    (∀ (ctx : Context) (world : World) (base : List Pending) (name : String)
        (callee : Value) (args : List Value) (final : Machine),
      (∀ frame, world.frames.top? = some frame → ∀ entry ∈ frame.values,
        entry.2 ∈ args) →
      Delivers ctx base (invoke world base name callee args) final →
      (∀ env < world.heap.scopes.size,
        ¬world.heap.Reachable (callRoots callee args) (.scope env) →
        final.world.heap.scopes[env]? = world.heap.scopes[env]?) ∧
      ∀ address < world.heap.fields.size,
        ¬world.heap.Reachable (callRoots callee args) (.inst address) →
        final.world.heap.fields[address]? = world.heap.fields[address]?) ∧
    (∀ (ctx : Context) (world : World) (pending : List Pending) (function : Function)
        (args : List Value) (m : Machine), function.closure < world.heap.scopes.size →
      Reaches ctx (callFunction world pending function args) m →
      Activation m.world.heap function world.heap.scopes.size) ∧
    ∀ (limit : Nat) (settings : RunSettings) (natives : List Native) (turns : List Turn)
        (session : Session) (answers : List Answer) (ctx : Context) (task : Task)
        (m m' : Machine) (function : Function) (mine other captured : ScopeId),
      (Session.start settings natives).play limit turns = some (session, answers) →
      Reaches ctx (task.machine session.heap) m → Reaches ctx m m' → mine ≠ other →
      Activation m.world.heap function mine → Activation m.world.heap function other →
      other ∈ m.world.heap.chain captured →
      m'.world.heap.bindings captured ≠ m.world.heap.bindings captured →
      ∃ middle env, Reaches ctx m middle ∧ middle.writer? = some env ∧
        captured ∈ middle.world.heap.chain env ∧
        mine ∉ middle.world.heap.chain env := by
  refine ⟨?_, ?_, ?_⟩
  · intro ctx world base name callee args final hframe h
    have hconfines := h.confines_of_invoke hframe
    refine ⟨fun env hmade hfar => hconfines.scopes_eq env ?_,
      fun address hmade hfar => hconfines.fields_eq address ?_⟩
    · exact Heap.not_has_territory_scope _ hmade hfar
    · exact Heap.not_has_territory_inst _ hmade hfar
  · intro ctx world pending function args m hclosure hm
    exact (activation_callFunction args hclosure).reaches hm
  · intro limit settings natives turns session answers ctx task m m' function mine
      other captured hplay hm hm' hne hmine hother hcaptured hchanged
    have hstart : (task.machine session.heap).world.heap.Nested := by
      rw [Task.world_machine]
      exact Session.nested_play hplay
    exact writer_of_captured (hm.nested hstart) hne hmine hother hcaptured hm' hchanged

/-- `func tick() = { n = 1; }` -/
def tickDecl : FunctionDecl :=
  .mk ⟨"tick", ⟨5, 9⟩⟩ []
    [.expression ⟨16, 22⟩ (.assign ⟨16, 21⟩ 0 "n" (.literal ⟨20, 21⟩ (.number 1)))]
      ⟨0, 24⟩

/-- Two scopes inside the global one that both bind `n`, and an instance, none of them
known globally. -/
def tickHeap : Heap :=
  ⟨#[⟨[], []⟩, ⟨[0], [("n", .number 0)]⟩, ⟨[0], [("n", .number 0)]⟩], #[[]], 1⟩

/-- `tick` as it was declared in the first of the two. -/
def tick : Function :=
  ⟨0, tickDecl, 1, false⟩

/-- The frame of the call was entered. -/
def tickWorld : World :=
  ⟨tickHeap, (Frames.empty.push globalFrame).push "tick", ""⟩

def tickContext : Context :=
  ⟨.frames, ⟨.function, .value, 1⟩, [], .ofNotes [.distance 0 1], .silent⟩

/-- The call `tick()` -/
def tickStart : Machine :=
  invoke tickWorld [] "tick" (.callable (.function tick)) []

/-- Its end. -/
def tickEnd : Machine :=
  tickStart.run tickContext 8

/-- Two counters, made by two calls of one function. -/
def countersTurns : List Turn :=
  [⟨.run, "func make() = { var n = 0; func next() = { n = n + 1; } return next; }
    var a = make(); var b = make();", tickContext.host⟩]

/-- `a()` -/
def countersCall : Task :=
  .evaluate (.call ⟨0, 3⟩ 101 (.var ⟨0, 1⟩ 100 "a") [])

/-- The function that a value is. -/
def function? : Value → Option Function
  | .callable (.function f) => some f
  | _ => none

/-- `tick()` sets the `n` that it sees; the other one, and the instance, are out of its
reach. `a()` sets the `n` of the first counter, in code that does not see the second
one. -/
theorem calls_local_tick :
    (Delivers tickContext [] tickStart tickEnd ∧
      ((tickEnd.world.heap.bindings 1).get? "n").bind Value.number? = some 1 ∧
      tickEnd.world.heap.scopes[2]? = some ⟨[0], [("n", .number 0)]⟩ ∧
      tickEnd.world.heap.fields[0]? = some []) ∧
    Activation tickStart.world.heap tick 3 ∧
    ∃ session answers make,
      (Session.start Settings.default.run []).play 100 countersTurns =
        some (session, answers) ∧
      ((session.heap.bindings globalScope).get? "make").bind function? = some make ∧
      Activation session.heap make 1 ∧ Activation session.heap make 2 ∧
      ∃ middle env, Reaches (session.context tickContext.host)
        (countersCall.machine session.heap) middle ∧ middle.writer? = some env ∧
        1 ∈ middle.world.heap.chain env ∧ 2 ∉ middle.world.heap.chain env := by
  obtain ⟨hlocal, hactivation, hapart⟩ := calls_local
  refine ⟨?_, hactivation tickContext tickWorld [] tick [] _ (by decide) .start, ?_⟩
  · have hdelivers : Delivers tickContext [] tickStart tickEnd := .of_run rfl
    have hreach : ∀ {cell},
      tickHeap.Reachable (callRoots (.callable (.function tick)) []) cell →
        cell ∈ [Cell.scope 0, .scope 1] :=
      Heap.Reachable.mem_of_closed (by decide) (by decide)
    obtain ⟨hscopes, hfields⟩ := hlocal tickContext tickWorld [] "tick" _ [] _
      (fun frame hframe entry hentry => by cases hframe; cases hentry) hdelivers
    exact ⟨hdelivers, rfl, hscopes 2 (by decide) fun h => absurd (hreach h) (by decide),
      hfields 0 (by decide) fun h => absurd (hreach h) (by decide)⟩
  · have hplayed : (((Session.start Settings.default.run []).play 100 countersTurns).map
      fun played =>
        ((((played.1.heap.bindings globalScope).get? "make").bind function?).map
          Function.closure, [0, 1, 2].map played.1.heap.chain)) =
          some (some 0, [[0], [1, 0], [2, 0]]) := by
      decide +kernel
    have hcounted :
      (((Session.start Settings.default.run []).play 100 countersTurns).map
        fun played =>
        let start := countersCall.machine played.1.heap
        let final := start.run (played.1.context tickContext.host) 30
        [start, final].map fun m => ((m.world.heap.bindings 1).get? "n").bind
          Value.number?) =
        some [some 0, some 1] := by
      decide +kernel
    obtain ⟨⟨session, answers⟩, hplay, hfacts⟩ := Option.map_eq_some_iff.1 hplayed
    rw [hplay] at hcounted
    simp only [map_cons, map_nil, Option.map_some, Option.some.injEq, Prod.mk.injEq,
      List.cons.injEq, and_true] at hfacts hcounted
    obtain ⟨hmake, hglobal, hfirst, hsecond⟩ := hfacts
    obtain ⟨hbefore, hafter⟩ := hcounted
    obtain ⟨make, hfound, hclosure⟩ := Option.map_eq_some_iff.1 hmake
    have hsize : make.closure < session.heap.scopes.size := by
      rw [hclosure]
      exact Heap.lt_size_of_chain (by rw [hglobal]; decide)
    have hone : Activation session.heap make 1 :=
      ⟨hsize, by rw [hfirst, hclosure, hglobal]⟩
    have htwo : Activation session.heap make 2 :=
      ⟨hsize, by rw [hsecond, hclosure, hglobal]⟩
    refine ⟨session, answers, make, hplay, hfound, hone, htwo, ?_⟩
    refine hapart _ _ _ _ _ _ _ countersCall _ _ make 2 1 1 hplay .start (.run _ 30 _)
      (by decide) htwo hone ?_ ?_
    · show 1 ∈ session.heap.chain 1
      rw [hfirst]
      decide
    · intro hsame
      rw [hsame] at hafter
      exact absurd (hbefore.symm.trans hafter) (by decide)


end Treewalk.Machine
