import Treewalk.Proofs.Token.LongestMatch

/-!
# One character of lookahead

Whether a match is the longest one is decided by the next character: where some pattern
matches more, one matches a single character more (`longest_append_iff`). So a part of a
text stays what it is when what comes after it is replaced by a text with the same first
character, and since no token goes on with a semicolon, tokens can be ended by one
anywhere. What a semicolon can go on is a comment.

* `Split.of_head?` — the parts of a text in front of another rest.
* `Split.semicolon` — a semicolon right after a token is a token of its own, and all
  parts around it stay.
* `Split.comment` — a semicolon after a comment that ends the text is part of the
  comment.
-/

namespace Treewalk

open List

open scoped Computability

variable {w text : List Char} {p : Pattern} {rest v : List Char} {before : List Lexeme}

/-! ## The next character -/

private theorem mem_of_mem_append_singleton {d e : Char} (h : e ∈ rest ++ [d]) :
    e ∈ rest ++ d :: v :=
  (show rest ++ [d] <+: rest ++ d :: v from ⟨v, by simp⟩).subset h

private theorem mem_oneOf_mul_kstar_of_append {p q : Char → Bool} {c d : Char}
    (h : c :: rest ++ d :: v ∈ oneOf p * (oneOf q)∗) :
    c :: rest ++ [d] ∈ oneOf p * (oneOf q)∗ := by
  obtain ⟨first, tail, heq, hfirst, htail⟩ := mem_oneOf_mul_kstar.1 h
  cases heq
  exact mem_oneOf_mul_kstar.2
    ⟨c, rest ++ [d], rfl, hfirst, fun e he => htail e (mem_of_mem_append_singleton he)⟩

namespace Pattern

theorem ident_of_word {k : Keyword} (h : w ∈ (word k).language) :
    w ∈ ident.language := by
  obtain ⟨c, body, htext, hc, hbody⟩ := toList_text_keyword k
  exact mem_oneOf_mul_kstar.2 ⟨c, body, (show w = k.text.toList from h).trans htext,
    hc, hbody⟩

/-- A match that goes on after another match does so with a character that some pattern
matches there. -/
private theorem exists_of_append {q : Pattern} {d : Char} (hw : w ∈ p.language)
    (hv : w ++ d :: v ∈ q.language) :
    ∃ r : Pattern, w ++ [d] ∈ r.language := by
  obtain ⟨c, rest, rfl, -⟩ := starts_of_mem hw
  cases q with
  | blanks => exact ⟨.blanks, mem_oneOf_mul_kstar_of_append hv⟩
  | number => exact ⟨.number, mem_oneOf_mul_kstar_of_append hv⟩
  | ident => exact ⟨.ident, mem_oneOf_mul_kstar_of_append hv⟩
  | word k => exact ⟨.ident, mem_oneOf_mul_kstar_of_append (ident_of_word hv)⟩
  | comment =>
    refine ⟨.comment, ?_⟩
    obtain ⟨tail, heq, htail⟩ := mem_comment.1 hv
    cases rest with
    | nil =>
      cases heq
      exact mem_comment.2 ⟨[], rfl, forall_mem_nil _⟩
    | cons e rest =>
      cases heq
      exact mem_comment.2
        ⟨rest ++ [d], rfl, fun e he => htail e (mem_of_mem_append_singleton he)⟩
  | sign s =>
    have htext : c :: rest ++ d :: v = s.text.toList := hv
    refine ⟨.sign s, ?_⟩
    rcases s.text_cases with ⟨a, ha, -⟩ | ⟨a, b, hab, -⟩
    · have hlength := congrArg List.length (htext.trans ha)
      simp at hlength
    · have hlength := congrArg List.length (htext.trans hab)
      simp only [length_append, length_cons, length_nil] at hlength
      obtain rfl := eq_nil_of_length_eq_zero (show v.length = 0 by omega)
      exact htext
  | string =>
    -- A string ends at its first quote, so it does not go on.
    obtain rfl : c = '"' :=
      of_decide_eq_true (starts_of_append hv (cons_prefix_cons.2 ⟨rfl, prefix_refl _⟩))
    obtain ⟨-, items, after, hitems, hshort⟩ := Segment.stringItems_of_match hw
      (cons_prefix_cons.2 ⟨rfl, prefix_append rest (d :: v)⟩)
    obtain ⟨-, items', after', hitems', hlong⟩ :=
      Segment.stringItems_of_match hv (prefix_refl _)
    cases hitems.symm.trans hitems'
    have hlength := congrArg List.length (hlong.trans hshort.symm)
    simp at hlength

end Pattern

/-- A match is the longest one if no pattern matches one character more. -/
theorem longest_append_iff : Longest (w ++ text) p w ↔ w ∈ p.language ∧
      (∀ d, text.head? = some d → ∀ r : Pattern, w ++ [d] ∉ r.language) ∧
      (p = .ident → ∀ k : Keyword, w ≠ k.text.toList) := by
  constructor
  · rintro ⟨hfits, -, hlongest, hreserved⟩
    refine ⟨hfits, fun d hd r hr => ?_, hreserved⟩
    obtain ⟨rest, rfl⟩ := List.head?_eq_some_iff.1 hd
    have hlength := hlongest r (w ++ [d]) hr ⟨rest, by simp⟩
    simp at hlength
  · rintro ⟨hfits, hnext, hreserved⟩
    refine ⟨hfits, prefix_append w text, fun q v hv hprefix => ?_, hreserved⟩
    refine Nat.le_of_not_lt fun hlt => ?_
    obtain ⟨u, rfl⟩ :=
      prefix_of_prefix_length_le (prefix_append w text) hprefix (Nat.le_of_lt hlt)
    obtain ⟨d, u, rfl⟩ := exists_cons_of_ne_nil (l := u) (by rintro rfl; simp at hlt)
    obtain ⟨r, hr⟩ := Pattern.exists_of_append hfits hv
    obtain ⟨after, hafter⟩ := (prefix_append_right_inj w).1 hprefix
    exact hnext d (by rw [← hafter]; rfl) r hr

/-! ## Semicolons -/

/-- Only a comment goes on with a semicolon. -/
theorem Pattern.not_mem_semicolon (hw : w ∈ p.language) (hp : p ≠ .comment)
    (r : Pattern) :
    w ++ [';'] ∉ r.language := by
  obtain ⟨c, rest, rfl, hc⟩ := starts_of_mem hw
  have hclass : ∀ {p q : Char → Bool}, q ';' = false →
      c :: rest ++ [';'] ∉ oneOf p * (oneOf q)∗ := by
    intro p q hq h
    obtain ⟨first, tail, heq, -, htail⟩ := mem_oneOf_mul_kstar.1 h
    cases heq
    have hin := htail ';' (mem_append_right _ mem_cons_self)
    rw [hq] at hin
    cases hin
  intro h
  cases r with
  | blanks => exact hclass (by decide) h
  | number => exact hclass (by decide) h
  | ident => exact hclass (by decide) h
  | word k => exact hclass (by decide) (ident_of_word h)
  | comment =>
    obtain ⟨tail, heq, htail⟩ := mem_comment.1 h
    cases rest with
    | nil => cases heq
    | cons e rest =>
      cases heq
      have hcomment : '/' :: '/' :: rest ∈ comment.language :=
        mem_comment.2 ⟨rest, rfl, fun d hd => htail d (mem_append_left _ hd)⟩
      rcases eq_or_reserved hw hcomment with heq | ⟨⟨k, hk⟩, -⟩
      · exact hp heq
      · obtain ⟨c, body, htext, hletter, -⟩ := toList_text_keyword k
        cases hk.trans htext
        revert hletter
        decide
  | sign s =>
    have htext : c :: rest ++ [';'] = s.text.toList := h
    rcases s.text_cases with ⟨a, ha, -⟩ | ⟨a, b, hab, hsign⟩
    · have hlength := congrArg List.length (htext.trans ha)
      simp at hlength
    · have hpair := htext.trans hab
      cases rest with
      | nil =>
        cases hpair
        unfold Segment.sign2? at hsign
        split at hsign <;> simp_all
      | cons d rest => simp at hpair
  | string =>
    obtain ⟨items, -, heq⟩ := mem_string.1 h
    have hlast := congrArg List.getLast? heq
    rw [List.getLast?_concat, List.getLast?_concat] at hlast
    cases hlast

namespace Lexeme

variable {l : Lexeme}

/-- A semicolon as a part of a text. -/
theorem exists_semicolon (text : List Char) :
    ∃ p, At ⟨p, [';'], some (.sign .semi)⟩ (';' :: text) := by
  have hfirst : Segment.first ';' text = ⟨.token (.sign .semi), [';'], text⟩ := by
    have hpair : text.head?.bind (Segment.sign2? ';') = none := by
      cases text with
      | nil => rfl
      | cons d text =>
        simp only [List.head?_cons, Option.bind_some]
        unfold Segment.sign2?
        split <;> simp_all
    have hsign : Segment.sign1? ';' = some .semi := rfl
    have hclasses : isBlank ';' = false ∧ isDecimal ';' = false ∧
      isWordStart ';' = false := by decide
    simp [Segment.first, Segment.sign, hpair, hsign, hclasses]
  have hkind : (Segment.first ';' text).kind = .token (.sign .semi) := by rw [hfirst]
  obtain ⟨p, hat⟩ := first_part (some (.sign .semi)) hkind
  rw [hfirst] at hat
  exact ⟨p, hat⟩

private theorem At.of_head? {text' : List Char} (h : l.At (l.chars ++ text))
    (hhead : text.head? = text'.head?) :
    l.At (l.chars ++ text') := by
  obtain ⟨hfits, hnext, hreserved⟩ := longest_append_iff.1 h.longest
  exact ⟨longest_append_iff.2 ⟨hfits, hhead ▸ hnext, hreserved⟩, h.means⟩

private theorem At.semicolon {t : Token} (h : l.At (l.chars ++ text))
    (htoken : l.token? = some t) (after : List Char) :
    l.At (l.chars ++ ';' :: after) := by
  obtain ⟨hfits, -, hreserved⟩ := longest_append_iff.1 h.longest
  have hpattern : l.pattern ≠ .comment := by
    intro hcomment
    have hmeans := h.means
    rw [hcomment, htoken] at hmeans
    cases hmeans
  refine ⟨longest_append_iff.2 ⟨hfits, fun d hd => ?_, hreserved⟩, h.means⟩
  cases hd
  exact Pattern.not_mem_semicolon hfits hpattern

theorem At.chars_ne_nil (h : l.At text) : l.chars ≠ [] :=
  h.longest.ne_nil

/-- A comment at the end of a text takes in a semicolon. -/
private theorem At.comment {w : List Char} (h : At ⟨.comment, w, none⟩ w) :
    At ⟨.comment, w ++ [';'], none⟩ (w ++ [';']) := by
  obtain ⟨rest, hw, hrest⟩ := mem_comment.1 h.longest.fits
  have hfits : w ++ [';'] ∈ Pattern.comment.language := by
    refine mem_comment.2 ⟨rest ++ [';'], congrArg (· ++ [';']) hw, fun c hc => ?_⟩
    rcases mem_append.1 hc with hc | hc
    · exact hrest c hc
    · rw [mem_singleton.1 hc]
      decide
  have hlongest : Longest (w ++ [';'] ++ []) .comment (w ++ [';']) :=
    longest_append_iff.2
      ⟨hfits, fun _ hd => (by cases hd), fun hident => (by cases hident)⟩
  rw [append_nil] at hlongest
  exact ⟨hlongest, .comment⟩

end Lexeme

/-! ## Parts before another rest -/

theorem covered_append (ls ms : List Lexeme) :
    covered (ls ++ ms) = covered ls ++ covered ms :=
  flatMap_append

theorem covered_concat (ls : List Lexeme) (l : Lexeme) :
    covered (ls ++ [l]) = covered ls ++ l.chars := by
  rw [covered_append, covered, covered, flatMap_singleton]

theorem placed_append (start : Nat) (ls ms : List Lexeme) :
    placed start (ls ++ ms) = placed start ls ++
      placed (start + size (covered ls)) ms := by
  induction ls generalizing start with
  | nil => rfl
  | cons l ls ih =>
    have hsize : size (covered (l :: ls)) = size l.chars + size (covered ls) :=
      size_append _ _
    rw [cons_append, placed, ih, placed, append_assoc, hsize, Nat.add_assoc]

theorem placed_eq_nil_iff {start : Nat} {ls : List Lexeme} :
    placed start ls = [] ↔ ∀ l ∈ ls, l.token? = none := by
  induction ls generalizing start with
  | nil => exact ⟨fun _ => forall_mem_nil _, fun _ => rfl⟩
  | cons l ls ih =>
    rw [placed, append_eq_nil_iff, ih, forall_mem_cons, Option.toList_eq_nil_iff,
      Option.map_eq_none_iff]

/-- Parts with a token among them end with their last token and what stands after it. -/
theorem exists_last_token {start : Nat} {ls : List Lexeme} (h : placed start ls ≠ []) :
    ∃ before l t gaps, ls = before ++ [l] ++ gaps ∧ l.token? = some t ∧ ∀ g ∈ gaps,
      g.token? = none := by
  induction ls generalizing start with
  | nil => exact absurd rfl h
  | cons l ls ih =>
    by_cases hrest : placed (start + size l.chars) ls = []
    · obtain ⟨t, ht⟩ : ∃ t, l.token? = some t := by
        refine Option.ne_none_iff_exists'.1 fun hnone => h ?_
        rw [placed, hrest, hnone]
        rfl
      exact ⟨[], l, t, ls, rfl, ht, placed_eq_nil_iff.1 hrest⟩
    · obtain ⟨before, last, t, gaps, rfl, ht, hgaps⟩ := ih hrest
      exact ⟨l :: before, last, t, gaps, rfl, ht, hgaps⟩

namespace Split

variable {text middle rest : List Char} {ls ms : List Lexeme}

theorem trans (h : Split text ls middle) (h' : Split middle ms rest) :
    Split text (ls ++ ms) rest := by
  induction h with
  | here => exact h'
  | next first _ ih => exact .next first (ih h')

theorem of_append (h : Split text (ls ++ ms) rest) :
    ∃ middle, Split text ls middle ∧ Split middle ms rest := by
  induction ls generalizing text with
  | nil => exact ⟨text, .here, h⟩
  | cons l ls ih =>
    cases h with
    | next first others =>
      obtain ⟨middle, hls, hms⟩ := ih others
      exact ⟨middle, .next first hls, hms⟩

/-- Parts of a text are parts of every text in which the rest starts as it did. -/
theorem of_head? {rest' : List Char} (h : Split text ls rest)
    (hhead : rest.head? = rest'.head?) :
    Split (covered ls ++ rest') ls rest' := by
  induction h with
  | here => exact .here
  | @next l ls text rest first others ih =>
    rw [covered, flatMap_cons, append_assoc, ← covered]
    refine .next (first.of_head? ?_) (ih hhead)
    rw [← others.append, List.head?_append, List.head?_append, hhead]

/-- A semicolon right after a token. -/
theorem semicolon {l : Lexeme} {t : Token} (h : Split text (before ++ [l]) rest)
    (htoken : l.token? = some t) (after : List Char) :
    Split (covered (before ++ [l]) ++ ';' :: after) (before ++ [l]) (';' :: after) := by
  obtain ⟨middle, hbefore, hlast⟩ := h.of_append
  cases hlast with
  | @next _ _ text' _ first _ =>
    have hparts : Split (covered before ++ (l.chars ++ ';' :: after)) before
        (l.chars ++ ';' :: after) := by
      refine hbefore.of_head? ?_
      obtain ⟨c, chars, hchars⟩ := exists_cons_of_ne_nil first.chars_ne_nil
      rw [hchars]
      rfl
    rw [covered_concat, append_assoc]
    exact hparts.trans (.next (first.semicolon htoken after) .here)

/-- A semicolon after a comment that ends the text. -/
theorem comment {w : List Char} (h : Split text (before ++ [⟨.comment, w, none⟩]) []) :
    Split (text ++ [';']) (before ++ [⟨.comment, w ++ [';'], none⟩]) [] := by
  obtain ⟨middle, hbefore, hlast⟩ := h.of_append
  cases hlast with
  | @next _ _ text' _ first others =>
    cases others
    rw [append_nil] at first
    have hparts : Split (covered before ++ (w ++ [';'])) before (w ++ [';']) := by
      refine hbefore.of_head? ?_
      obtain ⟨c, chars, hchars⟩ := exists_cons_of_ne_nil first.chars_ne_nil
      rw [show w = c :: chars from hchars]
      rfl
    have hcomment : Split (w ++ [';'] ++ []) [⟨.comment, w ++ [';'], none⟩] [] :=
      @Split.next ⟨.comment, w ++ [';'], none⟩ [] [] []
        (by rw [append_nil]; exact first.comment) .here
    rw [append_nil] at hcomment
    rw [← hbefore.append, append_nil, append_assoc]
    exact hparts.trans hcomment

end Split

end Treewalk
