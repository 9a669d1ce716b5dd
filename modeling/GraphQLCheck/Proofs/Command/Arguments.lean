import GraphQLCheck.Command.Arguments
import GraphQLCheck.Proofs.Except

/-!
# What a command line must name

A request to validate documents is read from a command line only if this names a file of the schema
and a path to look at (`Invocation.names_of_ofWords`).
-/

namespace GraphQLCheck

namespace ValidationRequest

variable {d : Draft} {words : List String} {r : ValidationRequest}

/-- Whether a request names a file of the schema and a path to look at. -/
def Names (r : ValidationRequest) : Prop := r.schemas ≠ [] ∧ r.paths ≠ []

/-- A request is complete only if it names what it must. -/
theorem Draft.names_of_finish (h : d.finish = .ok r) : r.Names := by
  obtain ⟨r', -, h⟩ := bind_eq_ok.1 h
  by_cases hnames : (r'.schemas = [] || r'.paths = []) = true
  · simp only [hnames, if_true] at h
    exact nomatch h
  · simp only [hnames] at h
    obtain rfl := pure_eq_ok.1 h
    simpa [Names] using hnames

/-- Whatever the words that are left, reading them ends with completing the request. -/
theorem Draft.names_of_read (h : d.read words = .ok r) : r.Names := by
  induction words generalizing d with
  | nil => exact names_of_finish h
  | cons w rest ih =>
    rw [read] at h
    -- behind two dashes all words are paths, and otherwise the other words are read in turn
    split at h
    · obtain ⟨d', -, h⟩ := bind_eq_ok.1 h
      exact names_of_finish h
    · obtain ⟨d', -, h⟩ := bind_eq_ok.1 h
      exact ih h

end ValidationRequest

namespace Invocation

variable {verbose verbose' : Bool} {words : List String} {r : ValidationRequest}

/-- The arguments of a command that asks for a validation name what they must. -/
theorem names_of_readCommand {name : String} (h : readCommand name words = .ok (.validate r)) :
    r.Names := by
  unfold readCommand at h
  split at h
  · obtain ⟨-, -, h⟩ := bind_eq_ok.1 h
    exact nomatch h
  · obtain ⟨r', hread, h⟩ := bind_eq_ok.1 h
    obtain rfl := Command.validate.inj (pure_eq_ok.1 h)
    exact ValidationRequest.Draft.names_of_read hread
  · exact nomatch h
  · exact nomatch h

/-- General options do not matter to what a request names. -/
theorem names_of_readWords (h : readWords verbose words = .ok ⟨verbose', some (.validate r)⟩) :
    r.Names := by
  induction words generalizing verbose with
  | nil => exact nomatch h
  | cons w rest ih =>
    rw [readWords] at h
    split at h
    · obtain ⟨command, hcommand, h⟩ := bind_eq_ok.1 h
      obtain ⟨-, hvalidate⟩ := Invocation.mk.inj (pure_eq_ok.1 h)
      obtain rfl := Option.some.inj hvalidate
      exact names_of_readCommand hcommand
    · cases rest <;> exact nomatch h
    · obtain ⟨verbose'', -, h⟩ := bind_eq_ok.1 h
      exact ih h
    · obtain ⟨verbose'', -, h⟩ := bind_eq_ok.1 h
      exact ih h

/-- A command line that asks for a validation names a file of the schema and a path to look at. -/
theorem names_of_ofWords (h : ofWords words = .ok ⟨verbose, some (.validate r)⟩) : r.Names :=
  names_of_readWords h

end Invocation

end GraphQLCheck
