import Treewalk.Proofs.Tree.Complete
import Treewalk.Proofs.Tree.Renaming
import Treewalk.Proofs.Tree.Sound
import Treewalk.Proofs.Tree.Spelling

/-!
# The parser is exact

The parser and the grammar are the same relation between tokens and trees. It accepts a
list of tokens exactly if the grammar derives it, and gives the tree of the derivation
with its numbers; the tree is the only one for these tokens; and it spells the tokens,
except for the commas that a list of arguments or parameters may end with.
-/

namespace Treewalk

open Grammar

/-- Acceptance does not depend on the first number. -/
theorem parse_ok_iff_derivable (firstId : NodeId) (tokens : Tokens) :
    (∃ program next, parse firstId tokens = (.ok program, next)) ↔
      ∃ n program next, Derives n tokens program next := by
  constructor
  · rintro ⟨program, next, h⟩
    exact ⟨firstId, program, next, derives_of_parse h⟩
  · rintro ⟨n, program, next, h⟩
    obtain ⟨program', next', h', _⟩ := h.renumber firstId
    exact ⟨program', next', parse_of_derives h'⟩

/-- Two derivations of the same tokens give the same tree, up to numbers. -/
private theorem unnumbered_eq_of_derives {n n' next next' : NodeId} {tokens : Tokens}
    {program program' : Program} (h : Derives n tokens program next)
    (h' : Derives n' tokens program' next') :
    program.unnumbered = program'.unnumbered := by
  obtain ⟨renumbered, next'', hr, he⟩ := h'.renumber n
  have hparse := parse_of_derives h
  rw [parse_of_derives hr] at hparse
  cases hparse
  exact he

/-- The parser accepts exactly the tokens that the grammar derives, and gives the tree
and the numbers of the derivation. The tokens have no other tree, up to numbers, and the
tree spells them without the commas at the end of lists. -/
theorem parse_exact (tokens : Tokens) :
    (∀ firstId, (∃ program next, parse firstId tokens = (.ok program, next)) ↔
      ∃ n program next, Derives n tokens program next) ∧
    (∀ firstId program next,
      parse firstId tokens = (.ok program, next) ↔
        Derives firstId tokens program next) ∧
    (∀ n n' program program' next next', Derives n tokens program next →
      Derives n' tokens program' next' → program.unnumbered = program'.unnumbered) ∧
    (∀ n program next, Derives n tokens program next →
      program.tokens = dropTrailingCommas (tokens.map (·.node))) := by
  refine ⟨fun firstId => parse_ok_iff_derivable firstId tokens, ?_, ?_, ?_⟩
  · intro firstId program next
    exact ⟨derives_of_parse, parse_of_derives⟩
  · intro n n' program program' next next' h h'
    exact unnumbered_eq_of_derives h h'
  · intro n program next h
    exact h.tokens

/-- `a.b = -f(x,);` -/
def trailingCall : Tokens :=
  [⟨.ident "a", ⟨0, 1⟩⟩, ⟨.sign .dot, ⟨1, 2⟩⟩, ⟨.ident "b", ⟨2, 3⟩⟩,
    ⟨.sign .eq, ⟨4, 5⟩⟩, ⟨.sign .minus, ⟨6, 7⟩⟩, ⟨.ident "f", ⟨7, 8⟩⟩,
    ⟨.sign .lparen, ⟨8, 9⟩⟩, ⟨.ident "x", ⟨9, 10⟩⟩, ⟨.sign .comma, ⟨10, 11⟩⟩,
    ⟨.sign .rparen, ⟨11, 12⟩⟩, ⟨.sign .semi, ⟨12, 13⟩⟩]

/-- The tree of `a.b = -f(x,);`, numbered from `n` on. -/
def trailingCallTree (n : NodeId) : Program :=
  ⟨[.expression ⟨0, 13⟩ (.set ⟨0, 12⟩ (.var ⟨0, 1⟩ n "a") ⟨"b", ⟨2, 3⟩⟩
    (.unary ⟨6, 12⟩ .neg (.call ⟨7, 12⟩ (n + 3) (.var ⟨7, 8⟩ (n + 1) "f")
      [.var ⟨9, 10⟩ (n + 2) "x"])))]⟩

theorem parse_exact_trailingCall :
    parse 5 trailingCall = (.ok (trailingCallTree 5), 9) ∧
      Derives 5 trailingCall (trailingCallTree 5) 9 ∧
      Derives 0 trailingCall (trailingCallTree 0) 4 ∧
      (trailingCallTree 5).unnumbered = (trailingCallTree 0).unnumbered ∧
      (trailingCallTree 5).tokens = dropTrailingCommas (trailingCall.map (·.node)) := by
  obtain ⟨_, same, unique, spelled⟩ := parse_exact trailingCall
  have hfive : parse 5 trailingCall = (.ok (trailingCallTree 5), 9) := rfl
  have hzero : parse 0 trailingCall = (.ok (trailingCallTree 0), 4) := rfl
  have dfive := (same 5 _ _).1 hfive
  have dzero := (same 0 _ _).1 hzero
  exact ⟨hfive, dfive, dzero, unique 5 0 _ _ _ _ dfive dzero, spelled 5 _ _ dfive⟩

end Treewalk
