import InstallScript.Fault
import InstallScript.Text.Case

/-!
Names the compiler makes up. They share a beginning that names in a source may not have, so they can
meet no name of the source; a counter keeps them apart from each other.
-/

namespace InstallScript.Names

/-- How every name of the compiler begins. -/
def reserved : String := "bridle_"

/-- The `n`-th generated name. -/
def generated (n : Nat) : String := reserved ++ toString n

/-- A name of the source, in whatever case, that begins like a name of the compiler. -/
def isReserved (name : String) : Bool :=
  reserved.toList.isPrefixOf (Text.lower name).toList

/-- Refuses reserved names. -/
def check (name : String) : Except Fault Unit :=
  if isReserved name then .error (.reservedName name) else .ok ()

/-- Functions of a script leave their result in this variable. -/
def returnRegister : Variable := ⟨reserved ++ "return", .global, none⟩

/-- Takes the result of a call that must write one which the script does not want. -/
def discarded : Variable := ⟨reserved ++ "nullvar", .global, none⟩

/-- Stands for an argument that was left out. -/
def omitted : String := "BRIDLE_NULL"

end InstallScript.Names
