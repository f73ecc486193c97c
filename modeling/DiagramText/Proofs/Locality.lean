import DiagramText.Parse
import DiagramText.Proofs.Continuation
import DiagramText.Proofs.Lines

/-!
# Newlines are local

A clean text keeps its tree when a newline and any other text follow: nothing
behind the newline changes a statement in front of it, and the text behind is
read as it is alone, with its spans and diagnostics moved. Only a stray pipe,
which later text could close, and an opening brace in an array, which lookahead
counts as the start of a block, reach over a newline.
-/

set_option autoImplicit false

namespace DiagramText.Locality
open Scanning Lines Joint Continuation

theorem next_readable {s s' : Scanner} {t : Token} (h : s.next? = some (t, s'))
    (hd : s'.diagnostics = []) : t.kind ≠ .error := by
  obtain ⟨c, cs, hr, rfl, rfl⟩ := next_cons h
  obtain ⟨k, hk⟩ := reading_ok (List.append_eq_nil_iff.mp hd).2
  intro herror
  simp only [hk, Lexeme.kind] at herror
  exact read_readable s.afterWord s.unclosed c cs (herror ▸ hk)

theorem drain_readable (s : Scanner) (hd : s.drain.2.diagnostics = []) :
    ∀ t ∈ s.drain.1, t.kind ≠ .error := by
  fun_induction Scanner.drain s with
  | case1 => simp
  | case2 s t s' h rest ih =>
    intro u hu
    rcases List.mem_cons.mp hu with rfl | hu
    · exact next_readable h (drain_silent hd)
    · exact ih hd u hu

def newlineTail (before after : String) : Tail where
  newline := ⟨.newline, before.utf8ByteSize, ['\n']⟩
  rest := (tokenize after).1.map (Relabelling.shift (before.utf8ByteSize + 1)).token
  stop := after.utf8ByteSize + (before.utf8ByteSize + 1)
  kind := rfl

theorem newline_size (before after : String) :
    (before ++ "\n" ++ after).utf8ByteSize = after.utf8ByteSize + (before.utf8ByteSize + 1) := by
  have hone : "\n".utf8ByteSize = 1 := rfl
  simp only [String.utf8ByteSize_append]
  omega

theorem document_newline (before after : String) (hclean : (parse before).diagnostics = [])
    (hpipes : ∀ t ∈ (tokenize before).1, isStrayPipe t = false)
    (harrays : ∀ n ∈ (parse before).tree.nodes, n.isKind .array = true →
      ∀ t ∈ n.tokens, t.kind ≠ .leftBrace) :
    Grammar.document
        ⟨(tokenize (before ++ "\n" ++ after)).1, (before ++ "\n" ++ after).utf8ByteSize⟩ =
      Output.append
        ⟨(parse before).tree.elements ++ [.token ⟨.newline, before.utf8ByteSize, ['\n']⟩], [],
          ⟨(newlineTail before after).rest, (newlineTail before after).stop⟩, false⟩
        ((Relabelling.shift (before.utf8ByteSize + 1)).output
          (Grammar.document ⟨(tokenize after).1, after.utf8ByteSize⟩)) := by
  obtain ⟨hscan, hread⟩ := List.append_eq_nil_iff.mp hclean
  have hmeets : (newlineTail before after).Meets ⟨(tokenize before).1, before.utf8ByteSize⟩ :=
    ⟨rfl, drain_readable (.ofText before) hscan⟩
  have hdocument : Faultless (Grammar.document ⟨(tokenize before).1, before.utf8ByteSize⟩) :=
    ⟨(Nesting.document_derives _ _).1, hread,
      fun n hn => harrays n (List.mem_cons_of_mem _ hn)⟩
  have hjoined := document_continues (newlineTail before after) hmeets hdocument
  have hmoved := @Relabelling.document_commutes (Relabelling.shift (before.utf8ByteSize + 1))
    ⟨(tokenize after).1, after.utf8ByteSize⟩
  rw [← hmoved, newline_size, tokenize_newline hscan hpipes]
  exact hjoined

/-- After a clean text and a newline, any text is parsed as it is alone, further on. The clean
text has neither a stray pipe nor an opening brace in an array. -/
theorem parse_newline (before after : String) (hclean : (parse before).diagnostics = [])
    (hpipes : ∀ t ∈ (tokenize before).1, isStrayPipe t = false)
    (harrays : ∀ n ∈ (parse before).tree.nodes, n.isKind .array = true →
      ∀ t ∈ n.tokens, t.kind ≠ .leftBrace) :
    (parse (before ++ "\n" ++ after)).tree.elements =
        (parse before).tree.elements ++ .token ⟨.newline, before.utf8ByteSize, ['\n']⟩ ::
          (Relabelling.shift (before.utf8ByteSize + 1)).trees (parse after).tree.elements ∧
      (parse (before ++ "\n" ++ after)).diagnostics =
        (parse after).diagnostics.map
          (Relabelling.shift (before.utf8ByteSize + 1)).diagnostic := by
  have hscan := (List.append_eq_nil_iff.mp hclean).1
  have hdocument := document_newline before after hclean hpipes harrays
  have htokens := @tokenize_newline before after hscan hpipes
  constructor
  · rw [parse, parseTokens, hdocument]
    simp [Tree.elements, Output.append, Relabelling.output, parse, parseTokens]
  · rw [parse, parseTokens, hdocument, htokens]
    simp [Output.append, Relabelling.output, parse, parseTokens]

theorem unclosed_block_below :
    (parse ("x: \x7b class: [p, q] \x7d" ++ "\n" ++ "\x7b z: 'w")).tree.elements =
        (parse "x: \x7b class: [p, q] \x7d").tree.elements ++ .token ⟨.newline, 20, ['\n']⟩ ::
          (Relabelling.shift 21).trees (parse "\x7b z: 'w").tree.elements ∧
      (parse ("x: \x7b class: [p, q] \x7d" ++ "\n" ++ "\x7b z: 'w")).diagnostics =
        (parse "\x7b z: 'w").diagnostics.map (Relabelling.shift 21).diagnostic :=
  parse_newline "x: \x7b class: [p, q] \x7d" "\x7b z: 'w" (by decide +kernel) (by decide +kernel)
    (by decide +kernel)

end DiagramText.Locality
