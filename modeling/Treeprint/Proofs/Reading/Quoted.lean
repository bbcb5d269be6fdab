import Treeprint.Proofs.Interner.Tables
import Treeprint.Proofs.Printer.Lines
import Treeprint.Proofs.Reading.Scan

/-!
# Reading string literals

A scanner that takes a backslash and the character behind it as one escape, and stops at the first
quote that is not escaped, is always in step with the literal: every character of a text is written
as one escape or as itself, and then it is neither a backslash nor a quote (`Scan.escape_cases`). So
a literal is read back whatever follows it, and different texts have different literals.

Main statement: `Value.str_reads_back`.
-/

namespace Treeprint

theorem Text.toList_quoted (s : String) : (quoted s).toList = '"' :: quotedTail s.toList :=
  String.toList_ofList

/-- What is read back from a literal is its text, so the literal decides the text. -/
theorem Text.quoted_inj {s t : String} : quoted s = quoted t ↔ s = t := by
  refine ⟨fun h => ?_, congrArg quoted⟩
  have htail : quotedTail s.toList = quotedTail t.toList := by
    have hlist := congrArg String.toList h
    rw [toList_quoted, toList_quoted] at hlist
    exact (List.cons.inj hlist).2
  have hs := Scan.unquote_quotedTail s.toList []
  rw [htail, Scan.unquote_quotedTail] at hs
  exact (String.toList_inj.mp (Prod.mk.inj (Option.some.inj hs)).1).symm

/-- A string is printed as its literal, at every depth and behind every text. -/
theorem Value.print_str {ctx : Context} {n : Name} {s : String}
    (hs : ctx.interner.lookup? n = some s) (k : Sink) :
    (Value.str n).doc.print ctx k = .ok () (k.wrote (Text.quoted s) []) := by
  have hissued : ctx.Issued n := (Array.getElem?_eq_some_iff.mp hs).1
  have htext : ctx.text n = s := by rw [Context.text, hs, Option.getD_some]
  rw [doc, Doc.print, Printer.write_lookup_eq, if_pos hissued, htext]

/-- The literal of a string starts with a quote, and from there the scanner reads the string and
leaves what follows the literal, whatever that is. No newline, tab, carriage return or NUL stands in
the literal as it is, and two literals are the same exactly if their strings are. -/
theorem Value.str_reads_back {ctx : Context} {n : Name} {s : String}
    (hs : ctx.interner.lookup? n = some s) :
    (∀ k, (Value.str n).doc.print ctx k = .ok () (k.wrote (Text.quoted s) [])) ∧
    (∃ tail, (Text.quoted s).toList = '"' :: tail ∧
      ∀ t, Scan.unquote (tail ++ t) = some (s.toList, t)) ∧
    (∀ c ∈ ['\n', '\t', '\r', '\x00'], c ∉ (Text.quoted s).toList) ∧
    ∀ s', Text.quoted s = Text.quoted s' ↔ s = s' :=
  ⟨Value.print_str hs,
    ⟨Text.quotedTail s.toList, Text.toList_quoted s, Scan.unquote_quotedTail s.toList⟩,
    Text.not_mem_quoted s, fun _ => Text.quoted_inj⟩

/-- A backslash before the closing quote, and an `n` behind a backslash beside a newline. -/
theorem Value.str_reads_back_backslashes :
    let s := "\\n\n\"\\"
    let tail := ['\\', '\\', 'n', '\\', 'n', '\\', '"', '\\', '\\', '"']
    (Interner.single s).lookup? ⟨0⟩ = some s ∧
    (∀ k, (Value.str ⟨0⟩).doc.print ⟨.single s, 2⟩ k =
      .ok () (k.wrote (String.ofList ('"' :: tail)) [])) ∧
    ∀ t, Scan.unquote (tail ++ t) = some (s.toList, t) := by
  intro s tail
  have hs : (Interner.single s).lookup? ⟨0⟩ = some s := rfl
  have hquoted : Text.quoted s = String.ofList ('"' :: tail) := by decide
  obtain ⟨hprint, ⟨tail', htail, hread⟩, -⟩ := @Value.str_reads_back ⟨.single s, 2⟩ ⟨0⟩ s hs
  rw [hquoted, String.toList_ofList] at htail
  obtain rfl : tail = tail' := (List.cons.inj htail).2
  exact ⟨hs, fun k => hquoted ▸ hprint k, hread⟩

end Treeprint
