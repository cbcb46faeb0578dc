import KeyValue.Proofs.Command.Reads
import KeyValue.Proofs.Text.Encoding
import KeyValue.Proofs.Text.Lossy

namespace KeyValue

namespace Verb

theorem ofName?_name (verb : Verb) : ofName? verb.name = some verb := by cases verb <;> rfl

theorem ofText_name (verb : Verb) :
    (∀ byte ∈ Bytes.ofText verb.name, byte < 128) ∧
      (Bytes.ofText verb.name).map Bytes.toChar = verb.name.toList := by
  cases verb <;> decide +kernel

-- The name of the command, each letter of it in upper or lower case.
def IsCalled (verb : Verb) (name : Bytes) : Prop :=
  name.map Bytes.upper = Bytes.ofText verb.name

instance (verb : Verb) (name : Bytes) : Decidable (verb.IsCalled name) :=
  inferInstanceAs (Decidable (name.map Bytes.upper = Bytes.ofText verb.name))

theorem IsCalled.ascii {verb : Verb} {name : Bytes} (h : verb.IsCalled name) :
    ∀ byte ∈ name, byte < 128 := by
  intro byte hbyte
  rw [← Bytes.upper_lt_iff]
  refine verb.ofText_name.1 _ ?_
  rw [← h]
  exact List.mem_map_of_mem hbyte

theorem isCalled_lowerName (verb : Verb) : verb.IsCalled (Bytes.ofText verb.lowerName) := by
  rw [IsCalled, lowerName, Bytes.ofText_ofList]
  cases verb <;> decide +kernel

end Verb

theorem Command.verb?_of_isCalled {verb : Verb} {name : Bytes} (h : verb.IsCalled name)
    (arguments : List Bytes) : verb? (name :: arguments) = some verb := by
  have hupper : (Text.lossy name).map Char.toUpper = verb.name.toList := by
    rw [Text.lossy_of_ascii h.ascii, List.map_map, ← verb.ofText_name.2, ← h, List.map_map]
    exact List.map_congr_left fun byte hbyte => Bytes.toUpper_toChar (h.ascii byte hbyte)
  rw [verb?, hupper, String.ofList_toList, verb.ofName?_name]

theorem Command.parse_of_isCalled {verb : Verb} {name : Bytes} (h : verb.IsCalled name)
    (arguments : List Bytes) : parse (name :: arguments) = ofArguments verb arguments := by
  have hverb := verb?_of_isCalled h arguments
  simp only [verb?] at hverb
  simp only [parse, hverb]

end KeyValue
