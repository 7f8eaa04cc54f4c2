import Treewalk.Proofs.Scope.Order
import Treewalk.Proofs.Session.Breaks

/-!
# Loose statements

A program with an entry point runs its declarations and then `main`. Its other top-level
statements are loose: they are resolved and never run. They show in one way, that a
variable among them which has the name of a capability shadows it. Where there is none,
the program without its loose statements is resolved alike at all its nodes
(`Program.resolve_withoutLoose`), and starts in the same state.

Two runs that start in the same state with the same known about all nodes in it stay
together. This is told by a renaming: if everything outside a tree is renamed to one
number that nothing is known about, the tree stays as it is, and so does every state of
its run (`Session.perform_of_sameAt`).

## Main results

* `Program.resolve_withoutLoose`: without loose statements a program is resolved alike.
* `Session.perform_of_sameAt`: what is known about other nodes does not show in a run.
* `Session.loose_ignored`: a program with an entry point runs as if it had no loose
  statements.
-/

namespace Treewalk

open List

variable {id : NodeId} {body : List Stmt} {program : Program}

/-! ## Nodes of statements -/

namespace Stmt

private theorem mem_listIds :
    id ∈ Stmt.listIds body ↔ ∃ stmt ∈ body, id ∈ stmt.ids := by
  induction body with
  | nil => simp [listIds]
  | cons stmt rest ih => simp [listIds, ih]

private theorem eq_of_mem_ids (hids : (Stmt.listIds body).Nodup) {stmt stmt' : Stmt}
    (hstmt : stmt ∈ body) (hstmt' : stmt' ∈ body) (hid : id ∈ stmt.ids)
    (hid' : id ∈ stmt'.ids) : stmt = stmt' := by
  induction body with
  | nil => cases hstmt
  | cons first rest ih =>
    obtain ⟨-, hrest, hdisjoint⟩ := nodup_append.1 hids
    have hapart : ∀ {other}, other ∈ rest → id ∈ other.ids → id ∉ first.ids := by
      intro other hother hid hfirst
      exact hdisjoint id hfirst id (mem_listIds.2 ⟨other, hother, hid⟩) rfl
    rcases mem_cons.1 hstmt with rfl | hmem <;> rcases mem_cons.1 hstmt'
      with rfl | hmem'
    · rfl
    · exact absurd hid (hapart hmem' hid')
    · exact absurd hid' (hapart hmem hid)
    · exact ih hrest hmem hmem'

end Stmt

/-! ## Programs without loose statements -/

namespace Program

/-- The program with its functions and classes alone. -/
def withoutLoose (program : Program) : Program :=
  ⟨program.stmts.filter Stmt.isDeclaration⟩

variable {program : Program} {natives : String → Bool} {globals : List String}
  {resolution : Resolution}

private theorem mem_withoutLoose {stmt : Stmt} :
    stmt ∈ program.withoutLoose.stmts ↔ stmt ∈ program.stmts ∧
      stmt.isDeclaration = true :=
  mem_filter

private theorem hasEntryPoint_withoutLoose :
    program.withoutLoose.hasEntryPoint = program.hasEntryPoint := by
  have hdeclaration : ∀ stmt : Stmt, (stmt.isDeclaration && stmt.isEntryPoint) =
      stmt.isEntryPoint := by
    intro stmt
    cases stmt <;> simp [Stmt.isDeclaration, Stmt.isEntryPoint]
  simp only [hasEntryPoint, withoutLoose, any_filter, hdeclaration]

/-- A run from the entry point starts without the loose statements. -/
theorem ofProgram_withoutLoose (hentry : program.hasEntryPoint = true) (heap : Heap) :
    Machine.ofProgram heap program.withoutLoose = Machine.ofProgram heap program := by
  have hfilter : program.withoutLoose.stmts.filter Stmt.isDeclaration =
      program.stmts.filter Stmt.isDeclaration := by
    simp only [withoutLoose, filter_filter, Bool.and_self]
  rw [Machine.ofProgram, Machine.ofProgram, hasEntryPoint_withoutLoose, if_pos hentry,
    if_pos hentry, Machine.ofEntryPoint, Machine.ofEntryPoint, hfilter]

/-! ## What is resolved without them -/

/-- No variable of the top level has the name of a capability. -/
def KeepsNatives (program : Program) (natives : String → Bool) : Prop :=
  ∀ span name init, Stmt.var span name init ∈ program.stmts → natives name.node = false

private theorem alike_withoutLoose (h : program.KeepsNatives natives)
    (globals : List String) :
    (program.sight natives globals).Alike
      (program.withoutLoose.sight natives globals) := by
  refine ⟨rfl, rfl, fun name hname => ?_⟩
  simp only [sight, mem_append, mem_filterMap, mem_withoutLoose]
  refine or_congr_left ⟨?_, Exists.imp fun stmt h => ⟨h.1.1, h.2⟩⟩
  rintro ⟨stmt, hstmt, hglobal⟩
  refine ⟨stmt, ⟨hstmt, ?_⟩, hglobal⟩
  cases stmt with
  | funcDecl span decl => rfl
  | classDecl span decl => rfl
  | var span name' init =>
    obtain rfl := Option.some.inj hglobal
    exact absurd hname (Bool.eq_false_iff.1 (h span name' init hstmt))
  | _ => cases hglobal

/-- What is found about a node of a declaration is found without the loose
statements. -/
private theorem mem_notes_withoutLoose (hformed : Stmt.listFormed program.stmts = true)
    (hids : program.ids.Nodup) (h : program.KeepsNatives natives) {note : Note}
    (hid : note.id ∈ program.withoutLoose.ids) :
    note ∈ Stmt.listNotes (program.sight natives globals) program.stmts ↔
      note ∈ Stmt.listNotes (program.withoutLoose.sight natives globals)
        program.withoutLoose.stmts := by
  have hown : ∀ stmt ∈ program.stmts, stmt.declared = stmt.globalName?.toList :=
    fun stmt hstmt => Stmt.declared_eq_globalName? (Stmt.formed_of_mem hformed hstmt)
  have hnotes : ∀ stmt : Stmt, stmt.notes (program.sight natives globals) =
      stmt.notes (program.withoutLoose.sight natives globals) :=
    Stmt.notes_alike (alike_withoutLoose h globals)
  rw [listNotes_eq hown, listNotes_eq fun stmt hstmt =>
    hown stmt (mem_withoutLoose.1 hstmt).1]
  simp only [mem_flatMap, hnotes, mem_withoutLoose]
  refine ⟨?_, fun ⟨stmt, hstmt, hnote⟩ => ⟨stmt, hstmt.1, hnote⟩⟩
  rintro ⟨stmt, hstmt, hnote⟩
  -- The node stands in a declaration, so the statement that it is found in is that one.
  obtain ⟨decl, hdecl, hid⟩ := Stmt.mem_listIds.1 hid
  obtain ⟨hdecl, hdeclaration⟩ := mem_withoutLoose.1 hdecl
  obtain rfl := Stmt.eq_of_mem_ids hids hstmt hdecl (Stmt.id_mem_of_mem_notes hnote) hid
  exact ⟨stmt, ⟨hstmt, hdeclaration⟩, hnote⟩

/-- Without its loose statements a program is still accepted, with the same known about
its nodes. -/
theorem resolve_withoutLoose (hformed : Stmt.listFormed program.stmts = true)
    (hids : program.ids.Nodup) (h : program.KeepsNatives natives)
    (hresolve : program.resolve natives globals = .ok resolution) :
    ∃ resolution', program.withoutLoose.resolve natives globals = .ok resolution' ∧
      ∀ id ∈ program.withoutLoose.ids, resolution.SameAt resolution' id := by
  have haccept : ∃ resolution', program.withoutLoose.resolve natives globals =
      .ok resolution' := by
    rw [resolve_eq_ok_iff]
    rintro ⟨decl, hdecl, hself⟩
    obtain ⟨stmt, hstmt, hdecl⟩ := Stmt.mem_listClasses.1 hdecl
    have hmem : decl ∈ program.classes :=
      Stmt.mem_listClasses.2 ⟨stmt, (mem_withoutLoose.1 hstmt).1, hdecl⟩
    exact resolve_eq_ok_iff.1 ⟨resolution, hresolve⟩ ⟨decl, hmem, hself⟩
  obtain ⟨resolution', hresolve'⟩ := haccept
  refine ⟨resolution', hresolve', fun id hid => ?_⟩
  rw [eq_ofNotes_of_resolve hresolve, eq_ofNotes_of_resolve hresolve']
  refine Resolution.sameAt_ofNotes (fun note hnote => ?_) fun d d' =>
    distance_unique hids
  exact mem_notes_withoutLoose hformed hids h (hnote ▸ hid)

private theorem sameAt_empty_of_not_mem
    (hresolve : program.resolve natives globals = .ok resolution)
    (hid : id ∉ program.ids) : resolution.SameAt .empty id :=
  ⟨distance?_resolve_of_not_mem hresolve hid,
    isNativeCall_resolve_of_not_mem hresolve hid⟩

private theorem ids_withoutLoose_subset : program.withoutLoose.ids ⊆ program.ids := by
  intro id hid
  obtain ⟨stmt, hstmt, hid⟩ := Stmt.mem_listIds.1 hid
  exact Stmt.mem_listIds.2 ⟨stmt, (mem_withoutLoose.1 hstmt).1, hid⟩

end Program

/-! ## Runs that know the same about their nodes -/

private theorem Resolution.sameAt_empty_merge (resolution : Resolution) (id : NodeId) :
    (Resolution.empty.merge resolution).SameAt resolution id := by
  refine ⟨?_, ?_⟩
  · rw [distance?_merge]
    rfl
  · rw [isNativeCall_merge]
    rfl

private theorem Machine.recast_ofProgram_start {ρ : NodeId → NodeId}
    (h : ∀ id ∈ program.ids, ρ id = id) (natives : List Native) :
    (ofProgram (.start natives) program).recast (.ofRenaming ρ) =
      ofProgram (.start natives) program := by
  rw [← Machine.ofProgram_recast, Heap.recast_start]
  exact congrArg _ (Program.rename_of_fixed h)

namespace Session

/-- A fresh session that knows this about nodes. -/
def knowing (settings : RunSettings) (natives : List Native) (known : Resolution) :
    Session :=
  { start settings natives with resolution := known }

private theorem ofProgram_eq_ok_iff {settings : RunSettings} {natives : List Native}
    {session : Session} :
    ofProgram settings natives program = .ok session ↔
      ∃ resolution,
        program.resolve (Native.enabled natives) (start settings natives).globalNames =
            .ok resolution ∧
        session = knowing settings natives (Resolution.empty.merge resolution) := by
  unfold ofProgram
  cases program.resolve (Native.enabled natives) (start settings natives).globalNames
    with
  | error fault => simp [Except.map]
  | ok resolution =>
    simp only [Except.map, Except.ok.injEq, exists_eq_left']
    exact eq_comm

/-- The outcome of a run and the heap that it leaves. -/
def observed (performed : Option (Session × Report)) : Option (Heap × Report) :=
  performed.map fun (done, report) => (done.heap, report)

variable {session : Session} {program : Program} {settings : RunSettings}
  {natives : List Native}

/-- A fresh session that knows about the nodes of a program what another one knows, and
nothing about some other number, performs the program as that one does, which knows
nothing else. -/
theorem perform_of_sameAt {known known' : Resolution}
    (hsame : ∀ id ∈ program.ids, known'.SameAt known id)
    (hunknown : ∀ id ∉ program.ids, known.SameAt .empty id) {fresh : NodeId}
    (hfresh : fresh ∉ program.ids) (hunknown' : known'.SameAt .empty fresh)
    (limit : Nat) (host : Host) :
    observed ((knowing settings natives known').perform limit host (.run program)) =
      observed
        ((knowing settings natives known).perform limit host (.run program)) := by
  let ρ : NodeId → NodeId := fun id => if id ∈ program.ids then id else fresh
  -- Everything outside the program gets the number that nothing is known about.
  have hrenamed : ∀ other : Resolution, (∀ id ∈ program.ids, other.SameAt known id) →
      other.SameAt .empty fresh → known.Renamed ρ other := by
    intro other hother hempty id
    by_cases hid : id ∈ program.ids
    · simp only [ρ, if_pos hid]
      exact hother id hid
    · obtain ⟨hdistance, hcall⟩ := hunknown id hid
      simp only [ρ, if_neg hid]
      exact ⟨hempty.1.trans hdistance.symm, hempty.2.trans hcall.symm⟩
  have hmatches : ∀ other : Resolution, known.Renamed ρ other →
      ((knowing settings natives known).context host).Matches (.ofRenaming ρ)
        ((knowing settings natives other).context host) := by
    intro other hother
    exact ⟨rfl, rfl, rfl, rfl, hother, fun hreturns => by cases hreturns⟩
  have hstart : (Task.run program).machine (.start natives) =
      ((Task.run program).machine (.start natives)).recast (.ofRenaming ρ) :=
    (Machine.recast_ofProgram_start (fun id hid => if_pos hid) natives).symm
  -- Both are the run of the second session with its numbers renamed.
  have hperform := perform_recast
    (hmatches known (hrenamed known (fun id _ => .refl known id)
      (hunknown fresh hfresh))) hstart limit
  have hperform' :=
    perform_recast (hmatches known' (hrenamed known' hsame hunknown')) hstart limit
  rw [hperform']
  refine Eq.trans ?_ (congrArg observed hperform).symm
  simp only [observed, Option.map_map]
  rfl

private theorem perform_withoutLoose (hentry : program.hasEntryPoint = true)
    (limit : Nat) (host : Host) :
    session.perform limit host (.run program.withoutLoose) =
      session.perform limit host (.run program) := by
  simp only [perform, Task.machine, Program.ofProgram_withoutLoose hentry]

/-- **Loose statements are ignored.** Take a parsed program that has an entry point, is
accepted by resolution, and has no top-level variable with the name of an enabled
capability. Without its loose statements it is accepted too, and in fresh sessions both
come to the same result or error, print the same and leave the same heap, globals
included, after the same number of transitions. -/
theorem loose_ignored {firstId next : NodeId} {tokens : List (Located Token)}
    (hparse : parse firstId tokens = (.ok program, next))
    (hfresh : ofProgram settings natives program = .ok session)
    (hentry : program.hasEntryPoint = true)
    (hvars : program.KeepsNatives (Native.enabled natives)) :
    ∃ session', ofProgram settings natives program.withoutLoose = .ok session' ∧
      ∀ limit host, observed (session'.perform limit host (.run program.withoutLoose)) =
        observed (session.perform limit host (.run program)) := by
  have hderives := derives_of_parse hparse
  have hcounts : Grammar.Counts program.ids firstId next := hderives.ids
  obtain ⟨resolution, hresolve, rfl⟩ := ofProgram_eq_ok_iff.1 hfresh
  obtain ⟨resolution', hresolve', hsame⟩ := Program.resolve_withoutLoose hderives.formed
    (hcounts.pairwise.imp Nat.ne_of_lt) hvars hresolve
  refine ⟨_, ofProgram_eq_ok_iff.2 ⟨resolution', hresolve', rfl⟩, fun limit host => ?_⟩
  -- The next number is in neither program, so nothing is known about it.
  have hnext : next ∉ program.ids :=
    fun hid => Nat.lt_irrefl next ((hcounts.mem_iff next).1 hid).2
  have hnext' : next ∉ program.withoutLoose.ids :=
    fun hid => hnext (Program.ids_withoutLoose_subset hid)
  rw [← perform_withoutLoose hentry]
  symm
  refine perform_of_sameAt ?_ ?_ hnext' ?_ limit host
  · intro id hid
    exact (Resolution.sameAt_empty_merge _ id).trans
      ((hsame id hid).trans (Resolution.sameAt_empty_merge _ id).symm)
  · intro id hid
    exact (Resolution.sameAt_empty_merge _ id).trans
      (Program.sameAt_empty_of_not_mem hresolve' hid)
  · exact (Resolution.sameAt_empty_merge _ next).trans
      (Program.sameAt_empty_of_not_mem hresolve hnext)

/-- Loose statements that would fail, shadow a local name or run forever stand around
`main`, which fails after it has printed. -/
def looseSource : String :=
  "print(boom()); var total = 5;
    func main() =
      { var total = 1; total = add(total, 2); print(total); clock(missing); }
    func add(a, b) = { return a + b; } while (true) { print(1); }"

theorem loose_ignored_main :
    ∃ tokens program next session session', parse 0 tokens = (.ok program, next) ∧
      ofProgram Settings.default.run Native.all program = .ok session ∧
      program.hasEntryPoint = true ∧
      program.KeepsNatives (Native.enabled Native.all) ∧
      program.withoutLoose.stmts.length < program.stmts.length ∧
      ofProgram Settings.default.run Native.all program.withoutLoose = .ok session' ∧
      (observed (session'.perform 60 idleHost (.run program.withoutLoose))).map
        (fun seen => (seen.2.output, seen.2.result.isOk)) = some ("3", false) := by
  have hfacts : ((Source.read 0 looseSource).1.toOption.bind fun program =>
      (ofProgram Settings.default.run Native.all program).toOption.bind fun session =>
        (session.perform 60 idleHost (.run program)).map fun done =>
          ((done.2.output, done.2.result.isOk), program.hasEntryPoint,
            decide (program.withoutLoose.stmts.length < program.stmts.length),
            program.stmts.all fun stmt => stmt.isDeclaration ||
              stmt.globalName?.all fun name => !Native.enabled Native.all name)) =
        some (("3", false), true, true, true) := by
    decide +kernel
  rcases hread : Source.read 0 looseSource with ⟨result, next⟩
  rw [hread] at hfacts
  obtain ⟨program, hprogram, hsession⟩ := Option.bind_eq_some_iff.1 hfacts
  obtain ⟨session, hsession, hreport⟩ := Option.bind_eq_some_iff.1 hsession
  obtain ⟨done, hdone, hreport⟩ := Option.map_eq_some_iff.1 hreport
  simp only [Prod.mk.injEq, decide_eq_true_eq, all_eq_true] at hreport
  obtain ⟨⟨houtput, hfails⟩, hentry, hloose, hall⟩ := hreport
  cases result with
  | error e => cases hprogram
  | ok parsed =>
    obtain rfl : parsed = program := Option.some.inj hprogram
    obtain ⟨tokens, -, hparse⟩ := Source.read_eq_ok_iff.1 hread
    have hfresh : ofProgram Settings.default.run Native.all parsed = .ok session := by
      generalize ofProgram Settings.default.run Native.all parsed = found at hsession
      cases found <;> cases hsession
      rfl
    have hvars : parsed.KeepsNatives (Native.enabled Native.all) := by
      intro span name init hmem
      exact Bool.not_eq_eq_eq_not.1 (hall (.var span name init) hmem)
    obtain ⟨session', hfresh', hperform⟩ := loose_ignored hparse hfresh hentry hvars
    refine ⟨tokens, parsed, next, session, session', hparse, hfresh, hentry, hvars,
      hloose, hfresh', ?_⟩
    rw [hperform 60 idleHost, hdone]
    simp only [observed, Option.map_some, houtput, hfails]

end Session

end Treewalk
