import DiagramText.Token.Lexeme

/-!
# Scanning a document

A scanner holds the text that is still to be read and what the tokens before
it decide: whether the last one was a word, and which lengths of pipe runs
have no closing run ahead. It hands out one token at a time and keeps the
diagnostics found so far.
-/

set_option autoImplicit false

namespace DiagramText

structure Scanner where
  rest : List Char
  offset : Nat := 0
  afterWord : Bool := false
  unclosed : List Nat := []
  diagnostics : List Diagnostic := []

namespace Scanner

def ofText (text : String) : Scanner := ⟨text.toList, 0, false, [], []⟩

def noteUnclosed (unclosed : List Nat) (t : Token) (rest : List Char) : List Nat :=
  if t.kind = .symbol ∧ t.text = ['|'] then Literal.pipeRun ('|' :: rest) :: unclosed
  else unclosed

def next? (s : Scanner) : Option (Token × Scanner) :=
  match s.rest with
  | [] => none
  | c :: cs =>
    let lexeme := Lexeme.read s.afterWord s.unclosed c cs
    let token : Token := ⟨Lexeme.kind lexeme.1, s.offset, c :: cs.take lexeme.2⟩
    some (token,
      { rest := cs.drop lexeme.2
        offset := token.stop
        afterWord := token.kind == .identifier
        unclosed := noteUnclosed s.unclosed token cs
        diagnostics := s.diagnostics ++ Lexeme.diagnostics token lexeme.1 })

theorem next?_shorter {s s' : Scanner} {t : Token} (h : s.next? = some (t, s')) :
    s'.rest.length < s.rest.length := by
  unfold next? at h
  split at h
  · simp at h
  · next c cs hr =>
    simp only [Option.some.injEq, Prod.mk.injEq] at h
    rw [← h.2, hr]
    simp only [List.length_drop, List.length_cons]
    omega

def drain (s : Scanner) : List Token × Scanner :=
  match _h : s.next? with
  | none => ([], s)
  | some (t, s') =>
    let rest := s'.drain
    (t :: rest.1, rest.2)
termination_by s.rest.length
decreasing_by exact next?_shorter _h

def take : Nat → Scanner → List Token × Scanner
  | 0, s => ([], s)
  | n + 1, s =>
    match s.next? with
    | none => ([], s)
    | some (t, s') => let rest := take n s'; (t :: rest.1, rest.2)

end Scanner

/-- All tokens of a text and its lexical diagnostics. -/
def tokenize (text : String) : List Token × List Diagnostic :=
  let run := (Scanner.ofText text).drain
  (run.1, run.2.diagnostics)

end DiagramText
