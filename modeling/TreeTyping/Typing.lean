import TreeTyping.Construct.Rule
import TreeTyping.Step

/-!
# Typing a phrase

A phrase is typed once. Literals type themselves, names are typed by the construct
around them, tokens and operators wait for that construct to settle them, and a construct
follows its rule: it types its parts stage by stage, tests their tags, and then settles
its words and binds itself.

## Implementation notes

The typing of a phrase is put together from the typings of its parts, which are steps.
`Rule.apply` takes these steps as a list and picks from it by position, so that the
recursion on phrases is structural and the rules need not know of it.
-/

namespace TreeTyping

namespace Demand

/-- Tests a demand on the parts of a phrase. -/
def test (p : Phrase) : Demand → Step
  | .oneOf part accepted =>
      .withValue (p.part part) fun q =>
        .withTag q.id fun received =>
          if received ∈ accepted then .done else .fail (p.mismatch accepted received)
  | .unbound part =>
      .withValue (p.part part) fun q =>
        .withTag q.id fun bound =>
          if bound.isBound then .fail ⟨.procedureBound q.lexeme bound, p.location⟩ else .done
  | .comparable left right =>
      .withValue (p.part left) fun l =>
        .withValue (p.part right) fun r =>
          .withTag l.id fun leftTag =>
            .withTag r.id fun rightTag =>
              if leftTag ∉ Tag.comparable then .fail (p.mismatch Tag.comparable leftTag)
              else if rightTag ∉ Tag.comparable then .fail (p.mismatch Tag.comparable rightTag)
              else if rightTag ≠ leftTag then .fail (p.mismatch [leftTag] rightTag)
              else .done
  | .assignable target value =>
      .withValue (p.part target) fun t =>
        .withValue (p.part value) fun v =>
          .withTag t.id fun targetTag =>
            .withTag v.id fun valueTag =>
              if targetTag ∉ Tag.assignable then .fail (p.mismatch Tag.assignable targetTag)
              else if valueTag ≠ targetTag then .fail (p.mismatch [targetTag] valueTag)
              else .done

end Demand

namespace Stage

/-- Types the parts of a stage and then tests its demands. The list holds the typing
of each part of the phrase. -/
def apply (p : Phrase) (typings : List Step) (stage : Stage) : Step :=
  let visits := Step.all (stage.visits.map fun part =>
    (typings[part]?).getD (.fail (p.missingPart part)))
  (if stage.opensScope then visits.inNewScope else visits).andThen
    (.all (stage.demands.map (Demand.test p)))

end Stage

namespace Defining

/-- Marks the text that a rule defines. -/
def apply (p : Phrase) : Defining → Step
  | .nameBelow part =>
      .withValue (p.part part) fun q =>
        match q.firstName? with
        | some name => .define name
        | none => .done
  | .textOf part => .withValue (p.part part) fun q => .define q.lexeme

end Defining

/-- The tag that a word receives from the construct that holds it. -/
def Category.settledTag? : Category → Option Tag
  | .operator _ => some .boolean
  | .token => some .wellTyped
  | _ => none

theorem Category.isSome_settledTag? (c : Category) : c.settledTag?.isSome = c.isWord := by
  cases c <;> rfl

namespace Phrase

/-- Settles a word. Other phrases are left as they are. -/
def settle (p : Phrase) : Step :=
  match p.category.settledTag? with
  | some tag => .assign p.id tag
  | none => .done

end Phrase

namespace Rule

/-- Gives tags to the parts that a rule does not look at. -/
def grantParts (rule : Rule) (p : Phrase) : Step :=
  .all (rule.grants.map fun grant =>
    .withValue (p.part grant.1) fun q => .assign q.id grant.2)

/-- Settles the words of a phrase and binds the phrase itself. -/
def conclude (rule : Rule) (p : Phrase) : Step :=
  (Step.all (p.parts.map Phrase.settle)).andThen (.assign p.id rule.result)

/-- Types a phrase by a rule, given the typing of each of its parts. -/
def apply (rule : Rule) (p : Phrase) (typings : List Step) : Step :=
  .all (rule.stages.map (Stage.apply p typings) ++
    [rule.grantParts p, (rule.defining.map (Defining.apply p)).getD .done, rule.conclude p])

end Rule

namespace Phrase

/-- Types a name by the category of the phrase around it. -/
def typeName (p : Phrase) (context : Option Category) : Step :=
  match context with
  | some (.construct .numberVariable) => .assign p.id .number
  | some (.construct .stringVariable) => .assign p.id .string
  | _ => .fail ⟨.ambiguousName p.lexeme context, p.location⟩

/-- Types a phrase by its category, given the typing of each of its parts. -/
def typeAs (p : Phrase) (context : Option Category) (typings : List Step) : Step :=
  match p.category with
  | .number => .assign p.id .number
  | .shortString => .assign p.id .string
  | .name => p.typeName context
  | .keyword | .token | .operator _ => .done
  | .construct c =>
      match c.rule? (p.parts.map category) with
      | some rule => rule.apply p typings
      | none => .fail (p.arityFault c.title c.arities)

mutual

/-- Types a phrase in the context of the phrase around it. A phrase that is bound
already is left alone. -/
def typing (context : Option Category) : Phrase → Step
  | .mk id category lexeme parts =>
      .withTag id fun tag =>
        if tag.isBound then .done
        else (Step.emit (.visiting id category)).andThen
          ((Phrase.mk id category lexeme parts).typeAs context
            (typings (some category) parts))

/-- The typing of each of several phrases in the same context. -/
def typings (context : Option Category) : List Phrase → List Step
  | [] => []
  | p :: ps => p.typing context :: typings context ps

end

theorem typings_eq_map (context : Option Category) (ps : List Phrase) :
    typings context ps = ps.map (typing context) := by
  induction ps with
  | nil => rfl
  | cons p ps ih => simp [typings, ih]

end Phrase

end TreeTyping
