import TreeTyping.Fault

/-!
# Phrases

A phrase is a node of a tree together with everything below it: its name, category and
text, and the phrases that are its parts. Phrases are the trees on which typing recurses.

## Implementation notes

`preOrder` and `size` are defined together with their versions on lists of parts, so
that all recursion here is structural. `Phrase.induction` is the induction principle
that goes with them.
-/

namespace TreeTyping

/-- A node with the phrases below it. -/
inductive Phrase where
  | mk (id : NodeId) (category : Category) (lexeme : String) (parts : List Phrase)

namespace Phrase

/-- The name of the node at the top. -/
def id : Phrase → NodeId
  | .mk id _ _ _ => id

/-- The category of the node at the top. -/
def category : Phrase → Category
  | .mk _ category _ _ => category

/-- The text of the node at the top. -/
def lexeme : Phrase → String
  | .mk _ _ lexeme _ => lexeme

/-- The phrases directly below the top, from left to right. -/
def parts : Phrase → List Phrase
  | .mk _ _ _ parts => parts

@[simp] theorem id_mk (i : NodeId) (c : Category) (l : String) (ps : List Phrase) :
    (mk i c l ps).id = i := rfl

@[simp] theorem category_mk (i : NodeId) (c : Category) (l : String) (ps : List Phrase) :
    (mk i c l ps).category = c := rfl

@[simp] theorem lexeme_mk (i : NodeId) (c : Category) (l : String) (ps : List Phrase) :
    (mk i c l ps).lexeme = l := rfl

@[simp] theorem parts_mk (i : NodeId) (c : Category) (l : String) (ps : List Phrase) :
    (mk i c l ps).parts = ps := rfl

/-- A statement that passes from the parts of a phrase to the phrase holds of every
phrase. -/
theorem induction {motive : Phrase → Prop}
    (step : ∀ i c l ps, (∀ p ∈ ps, motive p) → motive (mk i c l ps)) (p : Phrase) : motive p :=
  @Phrase.rec motive (fun ps => ∀ p ∈ ps, motive p) step (by simp)
    (fun _ _ head tail => List.forall_mem_cons.mpr ⟨head, tail⟩) p

/-- The number of parts. -/
def arity (p : Phrase) : Nat := p.parts.length

/-- Where the phrase stands. -/
def location (p : Phrase) : Location := ⟨p.id, p.category, p.lexeme⟩

/-- The fault of a phrase that has the wrong number of parts. -/
def arityFault (p : Phrase) (construct expected : String) : Fault :=
  ⟨.invalidArity construct expected p.arity, p.location⟩

/-- The fault of a phrase in which a part has another tag than it should. -/
def mismatch (p : Phrase) (expected : List Tag) (received : Tag) : Fault :=
  ⟨.typeMismatch expected received, p.location⟩

/-- The fault of looking for a part beyond the last one. -/
def missingPart (p : Phrase) (index : Nat) : Fault :=
  p.arityFault p.category.symbol ("at least " ++ (index + 1).repr)

/-- The part at a position, counted from zero. -/
def part (p : Phrase) (index : Nat) : Except Fault Phrase :=
  match p.parts[index]? with
  | some q => .ok q
  | none => .error (p.missingPart index)

mutual

/-- The number of nodes of a phrase. -/
def size : Phrase → Nat
  | .mk _ _ _ parts => sizeAll parts + 1

/-- The number of nodes of several phrases. -/
def sizeAll : List Phrase → Nat
  | [] => 0
  | p :: ps => p.size + sizeAll ps

end

mutual

/-- The nodes of a phrase, each before those below it and these from left to right. -/
def preOrder : Phrase → List NodeId
  | .mk id _ _ parts => id :: preOrderAll parts

/-- The nodes of several phrases, one phrase after the other. -/
def preOrderAll : List Phrase → List NodeId
  | [] => []
  | p :: ps => p.preOrder ++ preOrderAll ps

end

theorem sizeAll_append (ps qs : List Phrase) : sizeAll (ps ++ qs) = sizeAll ps + sizeAll qs := by
  induction ps with
  | nil => simp [sizeAll]
  | cons p ps ih => simp [sizeAll, ih, Nat.add_assoc]

/-- The nodes of the phrases on a stack. The top phrase gives its own node and leaves
its parts on the stack in its place. -/
def unstack : List Phrase → List NodeId
  | [] => []
  | .mk id _ _ parts :: rest => id :: unstack (parts ++ rest)
termination_by stack => sizeAll stack
decreasing_by simp only [sizeAll_append, sizeAll, size]; omega

/-- The text of the first name on the way down through first parts. -/
def firstName? : Phrase → Option String
  | .mk _ category lexeme parts =>
      if category = .name then some lexeme
      else match parts with
        | [] => none
        | p :: _ => p.firstName?

end Phrase

end TreeTyping
