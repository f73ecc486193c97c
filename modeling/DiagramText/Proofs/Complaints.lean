import DiagramText.Proofs.Switches

/-!
# What the grammar and the checks report

The grammar has few things to say: each of its reports is an error with one of
the messages below, and the message is in the words of its code. The checks find
one of four things about a property.
-/

set_option autoImplicit false

namespace DiagramText.Complaints
open Grammar Validation

inductive Wording : Code → String → Prop where
  | unexpected (k : TokenKind) : Wording .unexpectedToken ("unexpected " ++ k.describe)
  | ended : Wording .unexpectedToken "unexpected end of input"
  | deep : Wording .nestingTooDeep ("nesting deeper than " ++ maxNesting.repr ++ " levels")
  | before (k : TokenKind) : Wording .missingEndpoint ("expected a shape before " ++ k.describe)
  | after (k : TokenKind) : Wording .missingEndpoint ("expected a shape after " ++ k.describe)
  | array : Wording .unexpectedEnd "unclosed array"
  | block : Wording .unclosedBlock "unclosed block"
  | anonymous : Wording .anonymousBlock "anonymous block outside a shape"

/-- An error in the words of its code. -/
structure Complaint (d : Diagnostic) : Prop where
  error : d.isError = true
  words : ∃ k, d.code = some k ∧ Wording k d.message

theorem unexpected_complaint (c : Cursor) : Complaint (unexpected c) := by
  refine ⟨rfl, .unexpectedToken, rfl, ?_⟩
  unfold unexpected
  cases c.current? with
  | none => exact .ended
  | some k => exact .unexpected k

inductive Finding (palette : Palette) (owner : Owner) (property : Tree) : Diagnostic → Prop where
  | keyword {key : Tree} {first : String} {rest : List String} (key_eq : property.key? = some key)
      (segments : key.segments = first :: rest) :
      Finding palette owner property
        (.coded .warning .unknownKeyword
          ("unknown keyword `" ++ first ++ "` in connection block") key.span)
  | styleWord {key : Tree} {word : String} (key_eq : property.key? = some key)
      (path : styleAttribute? (fullPath owner key) = some word) :
      Finding palette owner property
        (.coded .warning .unknownKeyword ("unknown style keyword `" ++ word ++ "`") key.span)
  | styleValue {value : Tree} {style : StyleAttribute} {fault : StyleFault}
      (value_eq : property.value? = some value)
      (refused : style.check palette value.cooked = .error fault) :
      Finding palette owner property
        (.coded .error .invalidStyleValue (fault.message style.keyword) value.span)
  | shape {value : Tree} {sort : String} (value_eq : property.value? = some value)
      (sorts : sort = "arrowhead shape" ∨ sort = "shape type") :
      Finding palette owner property
        (.coded .warning .unknownShapeType
          ("unknown " ++ sort ++ " `" ++ value.cooked ++ "`") value.span)

section
variable {palette : Palette} {owner : Owner} {property key : Tree}

theorem connection_finds (hkey : property.key? = some key) :
    ∀ d ∈ checkConnectionKey key, Finding palette owner property d := by
  intro d hd
  unfold checkConnectionKey at hd
  split at hd
  · simp at hd
  · next first rest hsegments =>
    obtain rfl := Switches.mem_unless hd
    exact .keyword hkey hsegments

theorem style_finds {word : String} (hkey : property.key? = some key)
    (hpath : styleAttribute? (fullPath owner key) = some word) :
    ∀ d ∈ checkStyle palette word key property.value?, Finding palette owner property d := by
  intro d hd
  unfold checkStyle at hd
  split at hd
  · obtain rfl := List.mem_singleton.mp hd
    exact .styleWord hkey hpath
  · split at hd
    · simp at hd
    · next style _ _ value hvalue =>
      split at hd
      · simp at hd
      · next fault hfault =>
        obtain rfl := List.mem_singleton.mp hd
        exact .styleValue hvalue hfault

theorem shape_finds (path : List String) :
    ∀ d ∈ checkShape path property.value?, Finding palette owner property d := by
  intro d hd
  unfold checkShape at hd
  split at hd
  · simp at hd
  · next value hvalue =>
    obtain rfl := Switches.mem_unless hd
    refine .shape hvalue ?_
    cases path.any Keyword.isArrowhead <;> simp

theorem property_finds {checks : Checks} :
    ∀ d ∈ checkProperty palette checks owner property, Finding palette owner property d := by
  intro d hd
  unfold checkProperty at hd
  split at hd
  · simp at hd
  · next key hkey =>
    rcases List.mem_append.mp hd with hd | hd
    · split at hd
      · exact connection_finds hkey d hd
      · simp at hd
    · unfold checkPath at hd
      split at hd
      · next word hword =>
        refine style_finds hkey ?_ d hd
        split at hword
        · exact hword
        · simp at hword
      · split at hd
        · exact shape_finds _ d hd
        · simp at hd

end

theorem validate_finds {palette : Palette} {checks : Checks} {t : Tree} {d : Diagnostic}
    (hd : d ∈ validate palette checks t) :
    ∃ visit ∈ Switches.visited .nothing t, Finding palette visit.1 visit.2 d := by
  rw [Switches.validate_visited] at hd
  obtain ⟨visit, hvisit, hd⟩ := List.mem_flatMap.mp hd
  exact ⟨visit, hvisit, property_finds d hd⟩

end DiagramText.Complaints
