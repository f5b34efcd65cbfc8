import Everett.Bits
import Everett.Library.BitWords

/-!
# Word views

`word_view` checks the index of every element it loads.
-/

namespace Everett

open Outcome BitWords

/-- Element of a `word_view`. -/
def loadWord {α : Type} (words : List α) (index : ℕ) : Result α :=
  demand words[index]? "word section index"

theorem loadWord_eq {α : Type} {words : List α} {index : ℕ} {word : α}
    (there : words[index]? = some word) : loadWord words index = .ok word := by
  rw [loadWord, there]
  rfl

theorem loadWord_ok {words : List (BitVec 64)} {index : ℕ} (inside : index < words.length) :
    loadWord words index = .ok (itemOf words index) := by
  rw [loadWord_eq (List.getElem?_eq_getElem inside), itemOf, List.getElem?_eq_getElem inside]
  rfl

end Everett
