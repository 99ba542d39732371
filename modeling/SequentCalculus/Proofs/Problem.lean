import Mathlib.Data.List.TakeWhile
import SequentCalculus.Problem
import SequentCalculus.Proofs.Reading.RoundTrip

/-!
# Comment lines

A problem is read without its comment lines.  The lines that are left are put together again, each
without what ended it and with a line feed between them.  It could as well be read as it stands,
with its comment lines emptied (`Problem.emptied`): such a line is then a blank one, and blank lines
say nothing.

The two texts differ in their blanks at many places, but not in their tokens.  What ends a line are
blanks, and a text can be cut before a blank, so both texts have the tokens that their lines have
one after the other (`Token.scanLines`).  No token goes on from a line to the next one, and none
comes up where two lines are put together.
-/

namespace SequentCalculus

/-! ### Lines -/

namespace Text

variable {line : List Char}

/-- The carriage return that belongs to the end of a line, if a line feed follows the line. -/
def returnOf (line : List Char) : List Char :=
  if line.getLast? = some '\r' then ['\r'] else []

/-- What does not depend on a carriage return at the end does not depend on its removal. -/
theorem apply_dropReturn {α : Type} (g : List Char → α) (h : ∀ cs, g (cs ++ ['\r']) = g cs)
    (line : List Char) : g (dropReturn '\r' line) = g line := by
  unfold dropReturn
  split
  · rename_i hlast
    obtain ⟨cs, rfl⟩ := List.getLast?_eq_some_iff.1 hlast
    rw [List.dropLast_concat, h]
  · rfl

/-- A text is a line without a line feed, or begins with one that a line feed ends. -/
theorem induction_on_lines {motive : List Char → Prop}
    (last : ∀ line, '\n' ∉ line → motive line)
    (line : ∀ line rest, '\n' ∉ line → motive rest → motive (line ++ '\n' :: rest))
    (text : List Char) : motive text := by
  -- from left to right, with the line that has begun
  have hbegun : ∀ begun, '\n' ∉ begun → motive (begun ++ text) := by
    induction text with
    | nil =>
      intro begun hbegun
      rw [List.append_nil]
      exact last begun hbegun
    | cons c cs ih =>
      intro begun hbegun
      by_cases hc : c = '\n'
      · subst hc
        exact line begun cs hbegun (ih [] List.not_mem_nil)
      · rw [List.append_cons]
        exact ih (begun ++ [c]) (by simp [hbegun, Ne.symm hc])
  exact hbegun [] List.not_mem_nil

theorem linesAfter_append_feed (hline : '\n' ∉ line) (begun rest : List Char) :
    linesAfter '\n' '\r' begun (line ++ '\n' :: rest) =
      dropReturn '\r' (begun.reverse ++ line) :: textLines rest := by
  induction line generalizing begun with
  | nil =>
    rw [List.nil_append, linesAfter, if_pos rfl, List.append_nil]
    rfl
  | cons c line ih =>
    obtain ⟨hc, hline⟩ := List.ne_and_not_mem_of_not_mem_cons hline
    rw [List.cons_append, linesAfter, if_neg (Ne.symm hc), ih hline, List.reverse_cons,
      List.append_assoc, List.singleton_append]

/-- The first line of a text ends at its first line feed. -/
theorem textLines_append_feed (hline : '\n' ∉ line) (rest : List Char) :
    textLines (line ++ '\n' :: rest) = dropReturn '\r' line :: textLines rest :=
  linesAfter_append_feed hline [] rest

theorem linesAfter_of_notMem (hline : '\n' ∉ line) (begun : List Char) :
    linesAfter '\n' '\r' begun line =
      if begun.reverse ++ line = [] then [] else [begun.reverse ++ line] := by
  induction line generalizing begun with
  | nil => cases begun <;> simp [linesAfter]
  | cons c line ih =>
    obtain ⟨hc, hline⟩ := List.ne_and_not_mem_of_not_mem_cons hline
    rw [linesAfter, if_neg (Ne.symm hc), ih hline, List.reverse_cons, List.append_assoc,
      List.singleton_append]

/-- A text without a line feed is one line, unless it is empty. -/
theorem textLines_of_notMem (hline : '\n' ∉ line) :
    textLines line = if line = [] then [] else [line] :=
  linesAfter_of_notMem hline []

theorem length_lt_of_dropWhile {p : Char → Bool} {c : Char} {cs rest : List Char}
    (h : cs.dropWhile p = c :: rest) : rest.length < cs.length := by
  have hlength := Token.length_dropWhile_le p cs
  rw [h, List.length_cons] at hlength
  omega

end Text

namespace Problem

/-- The text with its comment lines emptied.  What ends a line stays, which is a line feed or a
carriage return and a line feed, and where the line is a comment nothing else does. -/
def emptied (text : List Char) : List Char :=
  let line := text.takeWhile (· != '\n')
  match h : text.dropWhile (· != '\n') with
  | [] => if isComment line then [] else line
  | feed :: rest =>
    have := Text.length_lt_of_dropWhile h
    (if isComment line then Text.returnOf line else line) ++ feed :: emptied rest
termination_by text.length

theorem emptied_of_notMem {line : List Char} (hline : '\n' ∉ line) :
    emptied line = if isComment line then [] else line := by
  have hpass := Text.bne_of_notMem hline
  have hdrop : line.dropWhile (· != '\n') = [] := List.dropWhile_eq_nil_iff.2 hpass
  rw [emptied]
  split
  · rw [List.takeWhile_eq_self_iff.2 hpass]
  · rename_i hcons
    rw [hdrop] at hcons
    cases hcons

theorem emptied_append_feed {line : List Char} (hline : '\n' ∉ line) (rest : List Char) :
    emptied (line ++ '\n' :: rest) =
      (if isComment line then Text.returnOf line else line) ++ '\n' :: emptied rest := by
  have hdrop := Text.dropWhile_append_mark hline rest
  rw [emptied]
  split
  · rename_i hnil
    rw [hdrop] at hnil
    cases hnil
  · rename_i hcons
    rw [hdrop] at hcons
    cases hcons
    rw [Text.takeWhile_append_mark hline]

example : emptied " % a\r\nb %\n%\n\t%\r".toList = "\r\nb %\n\n".toList := by decide +kernel

/-- A carriage return at the end of a line is a blank, and does not make the line a comment. -/
theorem isComment_dropReturn (line : List Char) :
    isComment (Text.dropReturn '\r' line) = isComment line := by
  refine Text.apply_dropReturn isComment (fun cs => ?_) line
  unfold isComment Text.trimStart
  rw [List.dropWhile_append]
  cases cs.dropWhile Text.isBlank <;> rfl

end Problem

/-! ### Tokens of lines -/

namespace Token

/-- The tokens of lines, one line after the other; `none` if some line cannot be scanned. -/
def scanLines : List (List Char) → Option (List Token)
  | [] => some []
  | line :: lines => (scan line).bind fun ts => (scanLines lines).map (ts ++ ·)

theorem scan_cons_space {c : Char} (hc : isSpace c = true) (cs : List Char) :
    scan (c :: cs) = scan cs := by
  rw [scan, if_pos hc]

theorem scan_append_feed (cs ds : List Char) : scan (cs ++ '\n' :: ds) =
    (scan cs).bind fun ts => (scan ds).map (ts ++ ·) := by
  rw [scan_append_blank (by decide), scan_cons_space (by decide)]

/-- Lines with line feeds between them. -/
theorem scan_intercalate (lines : List (List Char)) :
    scan (['\n'].intercalate lines) = scanLines lines := by
  induction lines with
  | nil => rw [List.intercalate_nil, scan, scanLines]
  | cons line lines ih =>
    cases lines with
    | nil =>
      rw [List.intercalate_singleton, scanLines]
      cases scan line <;> simp [scanLines]
    | cons line' lines =>
      rw [List.intercalate_cons_cons, List.append_assoc, List.singleton_append, scan_append_feed,
        ih]
      rfl

/-- A carriage return at the end of a line separates tokens like any other blank. -/
theorem scan_dropReturn (line : List Char) : scan (Text.dropReturn '\r' line) = scan line := by
  refine Text.apply_dropReturn scan (fun cs => ?_) line
  rw [scan_append_blank (by decide), scan_cons_space (by decide), scan]
  cases scan cs <;> simp

theorem scan_returnOf (line : List Char) : scan (Text.returnOf line) = some [] := by
  unfold Text.returnOf
  split
  · rw [scan_cons_space (by decide), scan]
  · rw [scan]

/-- **Emptied comment lines have no tokens**: what is left are the tokens of the other lines. -/
theorem scan_emptied (text : List Char) : scan (Problem.emptied text) =
    scanLines ((Text.textLines text).filter (!Problem.isComment ·)) := by
  induction text using Text.induction_on_lines with
  | last line hline =>
    rw [Problem.emptied_of_notMem hline, Text.textLines_of_notMem hline]
    by_cases hnil : line = []
    · subst hnil
      simp [scan, scanLines]
    · rw [if_neg hnil, ← scan_intercalate, List.filter_cons]
      cases Problem.isComment line <;> simp
  | line line rest hline ih =>
    rw [Problem.emptied_append_feed hline, Text.textLines_append_feed hline, scan_append_feed, ih,
      List.filter_cons, Problem.isComment_dropReturn]
    cases Problem.isComment line with
    | true => simp [scan_returnOf]
    | false => simp [scanLines, scan_dropReturn]

/-- The comment lines of a problem can be emptied instead of taken out. -/
theorem scan_body (text : String) :
    scan (Problem.body text).toList = scan (Problem.emptied text.toList) := by
  unfold Problem.body
  rw [String.toList_ofList, scan_intercalate, scan_emptied]

end Token

/-! ### Problems -/

/-- Texts with the same tokens are the same sequent, or neither of them is one. -/
theorem SequentExpr.read_eq_ok_congr {text text' : String}
    (h : Token.scan text.toList = Token.scan text'.toList) (e : SequentExpr) :
    read text = .ok e ↔ read text' = .ok e := by
  rw [read_eq_ok_iff, read_eq_ok_iff, h]

/-- The store with which work goes on: the one that was built, or the old one after an error. -/
def Store.after (s : Store) : Except InputError (Sequent × Store) → Store
  | .ok built => built.2
  | .error _ => s

/-- **Comment lines act as blank lines.**  A problem can be read if and only if the text whose
comment lines are emptied is a sequent, and then the sequent and the store are those that building
this sequent gives.  Otherwise the error shows the text without its comment lines, and the store
stays as it was. -/
theorem comment_lines_act_as_blank_lines (s : Store) (text : String) :
    let blanked := String.ofList (Problem.emptied text.toList)
    (∀ built, s.readProblem text = .ok built ↔
      ∃ e, SequentExpr.read blanked = .ok e ∧ e.build s = built) ∧
    (∀ error, s.readProblem text = .error error ↔
      error = .malformed (Problem.body text) ∧ ∀ e, SequentExpr.read blanked ≠ .ok e) ∧
    s.after (s.readProblem text) = match SequentExpr.read blanked with
      | .ok e => (e.build s).2
      | .error _ => s := by
  intro blanked
  have htokens : Token.scan (Problem.body text).toList = Token.scan blanked.toList := by
    rw [Token.scan_body, String.toList_ofList]
  have hread := SequentExpr.read_eq_ok_congr htokens
  have hok : ∀ built, s.readProblem text = .ok built ↔
      ∃ e, SequentExpr.read blanked = .ok e ∧ e.build s = built := fun built => by
    rw [Store.readProblem, Store.readSequent_eq_ok_iff]
    simp only [hread]
  have herror : ∀ error, s.readProblem text = .error error ↔
      error = .malformed (Problem.body text) ∧ ∀ e, SequentExpr.read blanked ≠ .ok e :=
    fun error => by
      rw [Store.readProblem, Store.readSequent_eq_error_iff, SequentExpr.read_eq_error_iff]
      simp only [ne_eq, hread]
  refine ⟨hok, herror, ?_⟩
  cases hblanked : SequentExpr.read blanked with
  | ok e => rw [(hok (e.build s)).2 ⟨e, hblanked, rfl⟩, Store.after]
  | error error =>
    have hnone : ∀ e, SequentExpr.read blanked ≠ .ok e := by simp [hblanked]
    rw [(herror _).2 ⟨rfl, hnone⟩, Store.after]

/-- A comment line between the two sides of an implication is passed over, whatever ends the lines,
but a comment line inside an arrow leaves no arrow. -/
theorem comment_lines_inside_implication :
    let s := Store.ofPolicy {}
    let e : SequentExpr := ⟨[.binary .implies (.atom "p") (.atom "q")], [.atom "q"]⟩
    s.readProblem "% a\r\np ->\r\n\u00a0% b\r\nq => q\n%" = .ok (e.build s) ∧
    s.readProblem "p -\n%\n> q" = .error (.malformed "p -\n> q") := by
  intro s e
  constructor
  · refine ((comment_lines_act_as_blank_lines s _).1 _).2 ⟨e, ?_, rfl⟩
    exact SequentExpr.read_eq_ok_iff.2
      ⟨[.ident "p", .op .implies, .ident "q", .turnstile, .ident "q"],
        by decide +kernel, by decide +kernel⟩
  · refine ((comment_lines_act_as_blank_lines s _).2.1 _).2 ⟨by decide +kernel, fun e he => ?_⟩
    obtain ⟨ts, hscan, -⟩ := SequentExpr.read_eq_ok_iff.1 he
    have hnone : Token.scan (Problem.emptied "p -\n%\n> q".toList) = none := by decide +kernel
    rw [String.toList_ofList, hnone] at hscan
    cases hscan

end SequentCalculus
