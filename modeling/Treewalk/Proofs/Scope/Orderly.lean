import Treewalk.Proofs.Scope.Findings
import Treewalk.Proofs.Scope.Ground

/-!
# Orderly programs

The frame of a call keeps copies of the variables and classes that its body declares,
and a copy is of use only as long as it says what the scope says. It may fail to where a
variable is passed as an argument, where two declarations share a name, where a function
assigns a variable of the function around it, or where a name is mentioned outside the
reach of its declaration. `Orderly` rules these out, in terms of the sites of the
program.

A site belongs to an activation, which the regions around it say: those that blocks
opened are passed over, and what remains starts with the body of a function or is empty
(`Regions.activation`). The regions that were passed over, and the first of those that
remain, are the ones that the activation owns (`Regions.Owns`). In an orderly program a
name that the activation of a site declares is found, from that site, in a region that
the activation owns, and it is the region of the declaration (`Orderly.shows`).
-/

namespace Treewalk

open List

variable {region : Region}

/-! ## Activations -/

/-- Whether a block opened the region. -/
def Origin.isBlock : Origin → Bool
  | block .. => true
  | _ => false

namespace Regions

/-- What the body of code is that a place belongs to: the regions from the body of its
function on, and none for top-level code. -/
def activation (regions : Regions) : List Origin :=
  regions.origins.dropWhile Origin.isBlock

/-- Only blocks stand between the place and the region at the distance. -/
def Owns (regions : Regions) (distance : Nat) : Prop :=
  ∀ origin ∈ regions.origins.take distance, origin.isBlock = true

/-- The region at the distance is the innermost one of a declaration of the name, which
was made. A declaration at the top level is in no region, and shows beyond the last
one. -/
structure Shows (regions home : Regions) (name : String) (distance : Nat) : Prop where
  length : distance + home.length = regions.length
  origins : Regions.origins (regions.drop distance) = home.origins
  named : ∀ region, regions[distance]? = some region → name ∈ region.names

variable {regions home : Regions} {name other : String} {distance : Nat}

@[simp] theorem length_origins (regions : Regions) :
    regions.origins.length = regions.length :=
  length_map _

@[simp] theorem activation_declare (names : List String) (regions : Regions) :
    (regions.declare names).activation = regions.activation := by
  rw [activation, origins_declare, activation]

@[simp] theorem length_declare (names : List String) (regions : Regions) :
    (regions.declare names).length = regions.length := by
  rw [← length_origins, origins_declare, length_origins]

private theorem origins_drop (regions : Regions) (distance : Nat) :
    Regions.origins (regions.drop distance) = regions.origins.drop distance := by
  simp [Regions.origins, map_drop]

/-- What is left of a list is dropped to the same end only if all before it is dropped
too. -/
private theorem all_take_of_dropWhile_drop {α : Type} {p : α → Bool} {n : Nat}
    {l : List α} (h : (l.drop n).dropWhile p = l.dropWhile p) :
    ∀ a ∈ l.take n, p a = true := by
  induction n generalizing l with
  | zero => simp
  | succ n ih =>
    cases l with
    | nil => simp
    | cons first rest =>
      rw [drop_succ_cons] at h
      by_cases hfirst : p first = true
      · rw [dropWhile_cons_of_pos hfirst] at h
        intro a ha
        rw [take_succ_cons] at ha
        rcases mem_cons.1 ha with rfl | hrest
        · exact hfirst
        · exact ih h a hrest
      · -- The first element stays on the right, so the right side is longer than the
        -- rest.
        rw [dropWhile_cons_of_neg hfirst] at h
        have hshort : ((rest.drop n).dropWhile p).length ≤ rest.length :=
          ((dropWhile_sublist p).trans (drop_sublist n rest)).length_le
        rw [h, length_cons] at hshort
        omega

/-- A declaration of the same activation shows in a region that the activation owns. -/
theorem Shows.owns (h : regions.Shows home name distance)
    (hactivation : home.activation = regions.activation) : regions.Owns distance := by
  refine all_take_of_dropWhile_drop ?_
  rw [← origins_drop, h.origins]
  exact hactivation

/-- Nothing shows in a region that was just opened. -/
theorem Shows.outer {origin : Origin}
    (h : Regions.Shows (⟨origin, []⟩ :: regions) home name distance) :
    ∃ d, distance = d + 1 ∧ regions.Shows home name d := by
  cases distance with
  | zero =>
    have hname := h.named ⟨origin, []⟩ rfl
    cases hname
  | succ d =>
    have hlength := h.length
    rw [length_cons] at hlength
    exact ⟨d, rfl, by omega, h.origins, fun region hregion => h.named region hregion⟩

theorem Shows.inner (h : regions.Shows home name distance) (region : Region) :
    Regions.Shows (region :: regions) home name (distance + 1) where
  length := by
    have hlength := h.length
    rw [length_cons]
    omega
  origins := h.origins
  named := h.named

/-- A declaration adds nothing but its own name. -/
theorem Shows.of_declare (h : (regions.declare [name]).Shows home other distance)
    (hother : other ≠ name) : regions.Shows home other distance where
  length := by
    have hlength := h.length
    rwa [length_declare] at hlength
  origins := by
    have horigins := h.origins
    rwa [origins_drop, origins_declare, ← origins_drop] at horigins
  named := by
    intro region hregion
    cases regions with
    | nil => simp at hregion
    | cons first outer =>
      cases distance with
      | zero =>
        obtain rfl : first = region := by simpa using hregion
        have hname := h.named ⟨first.origin, name :: first.names⟩ rfl
        exact (mem_cons.1 hname).resolve_left hother
      | succ d => exact h.named region hregion

theorem Shows.declare_self (h : (regions.declare [name]).Shows regions other distance) :
    distance = 0 := by
  have hlength := h.length
  rw [length_declare] at hlength
  omega

theorem Owns.of_declare {names : List String}
    (h : (regions.declare names).Owns distance) :
    regions.Owns distance := by
  rwa [Owns, origins_declare] at h

/-- Beyond the innermost region the activation owns what it owned without it. -/
theorem Owns.outer (h : Regions.Owns (region :: regions) (distance + 1)) :
    regions.Owns distance :=
  fun origin horigin => h origin (mem_cons_of_mem _ horigin)

theorem Owns.inner (h : regions.Owns distance) (hblock : region.origin.isBlock = true) :
    Regions.Owns (region :: regions) (distance + 1) := by
  intro origin horigin
  rcases mem_cons.1 horigin with rfl | horigin
  · exact hblock
  · exact h origin horigin

/-- The activation of a function owns its body and the blocks in it, nothing around
it. -/
theorem Owns.eq_zero (h : Regions.Owns (region :: regions) distance)
    (hblock : region.origin.isBlock = false) :
    distance = 0 := by
  cases distance with
  | zero => rfl
  | succ d =>
    have hhead := h region.origin mem_cons_self
    rw [hblock] at hhead
    cases hhead

end Regions

/-! ## Declarations -/

/-- The name that a site declares. -/
def Site.declared? (site : Site) : Option String :=
  match site.mention with
  | .declare _ name => some name
  | _ => none

/-- The conditions under which frames only copy scopes. -/
structure Orderly (plan : List Site) : Prop where
  /-- No argument of a call is a plain variable. -/
  arguments : ∀ site ∈ plan, ∀ id args, site.mention = .call id args →
    ∀ arg ∈ args, arg.isVar = false
  /-- No name is declared twice, by variables, functions, classes or parameters. It may
  be the name of a capability. -/
  distinct : (plan.filterMap Site.declared?).Nodup
  /-- An assignment stands outside all arguments and in the same function body, or
  top-level code, as the declaration of its target. -/
  assigned : ∀ site ∈ plan, ∀ id name, site.mention = .write id name →
    site.inArguments = false ∧ ∀ home ∈ plan, home.declared? = some name →
      home.regions.activation = site.regions.activation
  /-- A name that is declared locally is mentioned after its declaration and inside its
  scope: the nearest region around the mention that has the name by then is the scope of
  the declaration. -/
  inside : ∀ site ∈ plan, ∀ id name, site.mention.Refers id name →
    ∀ home ∈ plan, home.declared? = some name → home.regions ≠ [] →
      ∃ d, site.regions.distance? name = some d ∧
        Regions.origins (site.regions.drop d) = home.regions.origins

private theorem Declared.getElem? {plan : List Site} {regions : Regions}
    (h : Declared plan regions) {d : Nat} (hregion : regions[d]? = some region)
    (hbody : region.origin.isBody = true) {name : String}
    (hname : name ∈ region.names) : ∃ binder home,
      ⟨.declare binder name, home, false⟩ ∈ plan ∧
        Regions.origins home = Regions.origins (regions.drop d) := by
  induction regions generalizing d with
  | nil => simp at hregion
  | cons first outer ih =>
    cases d with
    | zero =>
      obtain rfl : first = region := by simpa using hregion
      exact h.1 hbody name hname
    | succ d => exact ih h.2 (by simpa using hregion)

namespace Orderly

variable {plan : List Site} {name : String} {home home' : Regions}
  {binder binder' : Binder}

/-- A name has one declaration. -/
theorem unique (h : Orderly plan) (hsite : ⟨.declare binder name, home, false⟩ ∈ plan)
    (hsite' : ⟨.declare binder' name, home', false⟩ ∈ plan) :
    binder = binder' ∧ home = home' := by
  have heq := eq_of_nodup_filterMap h.distinct hsite hsite' rfl rfl
  cases heq
  exact ⟨rfl, rfl⟩

/-- From the site of a reference, a declaration of the same activation shows at the
recorded distance, or beyond the last region where there is none. -/
theorem shows (h : Orderly plan) {site : Site} (hsite : site ∈ plan) {id : NodeId}
    (hrefers : site.mention.Refers id name)
    (hhome : ⟨.declare binder name, home, false⟩ ∈ plan)
    (hactivation : home.activation = site.regions.activation)
    (hdeclared : Declared plan site.regions) :
    ∃ d, site.regions.Shows home name d ∧
      (site.regions.distance? name = some d ∨
        site.regions.distance? name = none ∧ d = site.regions.length) := by
  by_cases hlocal : home = []
  · -- Top-level code: all regions are blocks, and a block with the name would declare
    -- it again.
    subst hlocal
    have hshows : site.regions.Shows [] name site.regions.length :=
      ⟨rfl, by simp [Regions.origins], fun region hregion => by simp at hregion⟩
    refine ⟨site.regions.length, hshows, .inr ⟨?_, rfl⟩⟩
    cases hdistance : site.regions.distance? name with
    | none => rfl
    | some d =>
      obtain ⟨region, hregion, hname⟩ := Regions.exists_of_distance? hdistance
      have hblock : region.origin.isBlock = true := by
        refine hshows.owns hactivation region.origin ?_
        rw [← Regions.length_origins, take_length]
        exact mem_map.2 ⟨region, mem_of_getElem? hregion, rfl⟩
      have hbody : region.origin.isBody = true := by
        cases horigin : region.origin with
        | block span body => rfl
        | _ => rw [horigin] at hblock; cases hblock
      obtain ⟨binder', home', hagain, horigins⟩ :=
        hdeclared.getElem? hregion hbody hname
      obtain ⟨-, rfl⟩ := h.unique hhome hagain
      have hlt : d < site.regions.length := (List.getElem?_eq_some_iff.1 hregion).1
      have hlength := congrArg List.length horigins
      simp only [Regions.length_origins, length_nil, length_drop] at hlength
      omega
  · obtain ⟨d, hdistance, horigins⟩ :=
      h.inside site hsite id name hrefers _ hhome rfl hlocal
    obtain ⟨region, hregion, hname⟩ := Regions.exists_of_distance? hdistance
    have hlt : d < site.regions.length := (List.getElem?_eq_some_iff.1 hregion).1
    have hlength := congrArg List.length horigins
    simp only [Regions.length_origins, length_drop] at hlength
    refine ⟨d, ⟨by omega, horigins, ?_⟩, .inl hdistance⟩
    intro found hfound
    obtain rfl : region = found := Option.some.inj (hregion.symm.trans hfound)
    exact hname

end Orderly

end Treewalk
