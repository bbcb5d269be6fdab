import Treeprint.Proofs.Printer.Parts

/-!
# Line ends

A text has a line end where its document has one, and where a word in it has one
(`Doc.newlines_output`). Nothing else brings one in: indentations are spaces, and a string literal
is on one line, whatever it stands for. How many line ends a document has is known from the tree.

Main statement: the text of a program has one line end for each of its statements and arms, and one
more for the head of each definition, module, `if` and second body (`Program.count_newlines`). A
block that ends its statements, one that joins them and one that has none all come to this.
-/

namespace Treeprint

namespace Text

def newlines (s : String) : Nat := s.toList.count '\n'

theorem newlines_append (s t : String) : newlines (s ++ t) = newlines s + newlines t := by
  simp [newlines]

theorem newlines_eq_zero_iff {s : String} : newlines s = 0 ↔ OneLine s := List.count_eq_zero

end Text

/-- The line ends that a name brings into a text. As a literal it brings none. -/
def Mention.newlines (ctx : Context) : Mention → Nat
  | .word n => Text.newlines (ctx.text n)
  | .literal _ => 0

/-- The line ends of a text are those of its document and those of the words in it. -/
theorem Doc.newlines_output (ctx : Context) (d : Doc) (depth : Nat) :
    Text.newlines (d.output ctx depth) =
      d.weight 1 0 + (d.mentions.map (Mention.newlines ctx)).sum := by
  induction d generalizing depth with
  | empty => rfl
  | text s => simp [output, weight, mentions, Text.newlines]
  | name n => simp [output, weight, mentions, Mention.newlines]
  | quoted n => exact Text.newlines_eq_zero_iff.mpr (Text.oneLine_quoted (ctx.text n))
  | indent => exact Text.newlines_eq_zero_iff.mpr (Text.oneLine_spaces (depth * ctx.indentSize))
  | append a b iha ihb =>
    simp only [output, weight, mentions, Text.newlines_append, iha, ihb, List.map_append,
      List.sum_append]
    omega
  | scope d ih => simpa [output, weight, mentions] using ih (depth + 1)

/-- The parts that have a line of their own or a line for their head, one by one. -/
theorem Part.total_lines (ps : List Part) :
    Part.total 1 0 ps = ps.count .stmt + ps.count .arm + ps.count .ifElse + ps.count .elseBody +
      ps.count .module + ps.count .define := by
  induction ps with
  | nil => rfl
  | cons p ps ih => cases p <;> simp [Part.weight, ih] <;> omega

/-- Reports aside, a program renders as its document does. -/
theorem Program.render_ok_iff {ctx : Context} {p : Program} {k : Sink} {s : String} :
    (∃ l, p.render ctx k = .ok s l) ↔
      p.doc.Printable ctx k.depth 0 ∧ s = p.doc.output ctx k.depth := by
  let k₁ : Sink := ⟨k.depth, k.out, k.events.push (.programStart p.body.length)⟩
  have hrender : (∃ l, p.render ctx k = .ok s l) ↔ ∃ l, p.doc.render ctx k₁ = .ok s l := by
    show (∃ l, EStateM.bind (p.doc.render ctx) _ k₁ = .ok s l) ↔ _
    rcases h : p.doc.render ctx k₁ with ⟨t, l⟩ | ⟨fault, l⟩
    · simp only [EStateM.bind, h]
      show (∃ l', EStateM.Result.ok t _ = .ok s l') ↔ _
      simp
    · simp [EStateM.bind, h]
  rw [hrender, Doc.render_ok_iff]

/-- As long as the words in it have no line end, the text of a program has one line end for each
statement and each arm that is printed, and one for the head of each `if`, second body, module and
definition. String literals may stand for any text. -/
theorem Program.count_newlines (ctx : Context) (p : Program)
    (hwords : ∀ m word, .word m ∈ (Node.program p).mentions →
      ctx.interner.lookup? m = some word → '\n' ∉ word.toList)
    {k k' : Sink} {text : String} (hrender : p.render ctx k = .ok text k') :
    let parts := (Node.program p).parts
    text.toList.count '\n' = parts.count .stmt + parts.count .arm + parts.count .ifElse +
      parts.count .elseBody + parts.count .module + parts.count .define := by
  obtain ⟨hprint, rfl⟩ := Program.render_ok_iff.mp ⟨k', hrender⟩
  have hnone : ∀ m ∈ p.doc.mentions, m.newlines ctx = 0 := by
    rintro (n | n) hn
    · have hissued : ctx.Issued n := hprint.issued n (by
        rw [Doc.names_eq_map]
        exact List.mem_map_of_mem hn)
      have hmention : .word n ∈ (Node.program p).mentions := (Node.program p).mentions_doc ▸ hn
      exact Text.newlines_eq_zero_iff.mpr
        (hwords n (ctx.text n) hmention (Context.lookup?_of_issued hissued))
    · rfl
  have hwordless : (p.doc.mentions.map (Mention.newlines ctx)).sum = 0 := by
    rw [List.sum_eq_zero_iff_forall_eq_nat, List.forall_mem_map]
    exact hnone
  calc Text.newlines (p.doc.output ctx k.depth)
      = p.doc.weight 1 0 := by rw [Doc.newlines_output, hwordless, Nat.add_zero]
    _ = Part.total 1 0 (Node.program p).parts := (Node.program p).weight_doc
    _ = _ := Part.total_lines _

/-- A definition that joins its statements and one that has none, an `if` with a second body without
statements, a case within a list, and a literal with a line end in its text. Behind the rest of
the list there is another case, which is not printed and not counted. -/
theorem Program.count_newlines_nested :
    let names : Std.HashMap String Name := (∅ : Std.HashMap String Name).insert "x" ⟨0⟩
    let ctx : Context := ⟨⟨names.insert "a\nb" ⟨1⟩, #["x", "a\nb"]⟩, 3⟩
    let x : Expr := .ofForm (.symbol (.unqualified ⟨0⟩))
    let literal : Expr := .ofForm (.value (.str ⟨1⟩))
    let arm : Pattern × Expr := (.ofForm (.symbol (.unqualified ⟨0⟩)), literal)
    let cases : Expr := .ofForm (.case x [arm, arm])
    let choice : Expr := .ofForm (.ifElse x [.ofForm (.expr x)] (some []))
    let list : Expr := .ofForm (.list (.element cases (.rest (.element x (.last cases)))))
    let idle : Stmt := .ofForm (.define ⟨0⟩ [] none [])
    let p : Program := ⟨[.ofForm (.define ⟨0⟩ [] none [.ofForm (.expr choice), idle]),
      .ofForm (.module ⟨0⟩ [.ofForm (.val ⟨0⟩ list)])]⟩
    let text := "def x():\n   if x then\n      x\n   else\n   end;\n   def x():\n   end\nend\n" ++
      "module x\n   val x = [case x of\n      | x => \"a\\nb\"\n      | x => \"a\\nb\" :: x]\n" ++
      "end\n"
    (∀ m word, .word m ∈ (Node.program p).mentions → ctx.interner.lookup? m = some word →
      '\n' ∉ word.toList) ∧
    (∃ k, p.render ctx {} = .ok text k) ∧
    text.toList.count '\n' = 6 + 2 + 1 + 1 + 1 + 2 := by
  intro names ctx x literal arm cases choice list idle p text
  have hwords : ∀ m word, .word m ∈ (Node.program p).mentions →
      ctx.interner.lookup? m = some word → '\n' ∉ word.toList := by
    intro m word hm hword
    have hmentions : ∀ q ∈ (Node.program p).mentions, q = .word ⟨0⟩ ∨ q = .literal ⟨1⟩ := by decide
    obtain rfl : m = ⟨0⟩ := by simpa using hmentions _ hm
    obtain rfl : "x" = word := Option.some.inj hword
    decide
  obtain ⟨k, hrender⟩ : ∃ k, p.render ctx {} = .ok text k :=
    Program.render_ok_iff.mpr ⟨⟨by decide, by decide⟩, by decide +kernel⟩
  refine ⟨hwords, ⟨k, hrender⟩, (Program.count_newlines ctx p hwords hrender).trans ?_⟩
  decide

end Treeprint
