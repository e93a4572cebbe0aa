import InstallScript.Main
import InstallScript.Proofs.TargetNames
import InstallScript.Proofs.Calls
import InstallScript.Proofs.Assignments
import InstallScript.Proofs.Leftover
import InstallScript.Proofs.Hoisting
import InstallScript.Proofs.Folding
import InstallScript.Proofs.Following
import InstallScript.Proofs.GeneratedNames
import InstallScript.Proofs.Lossless
import InstallScript.Proofs.InclusionDepth
import InstallScript.Proofs.Expansion
import InstallScript.Proofs.Respacing
import InstallScript.Proofs.Encodings
import InstallScript.Proofs.Growth
import InstallScript.Proofs.Resolving
import InstallScript.Proofs.Scopes
import InstallScript.Proofs.Verbatim
import InstallScript.Proofs.Execution
import InstallScript.Proofs.ErrorFlags
import InstallScript.Proofs.DirectBinding
import InstallScript.Proofs.LetterCase
import InstallScript.Proofs.Caseless
import InstallScript.Proofs.Agreement
import InstallScript.Proofs.Bounds
import InstallScript.Proofs.Routines
import InstallScript.Proofs.Nesting
import InstallScript.Proofs.OpenTerms
import InstallScript.Proofs.ConditionChains
import InstallScript.Proofs.BuiltinCalls
import InstallScript.Proofs.Dialogs
import InstallScript.Proofs.Quoting
import InstallScript.Proofs.Parentheses
import InstallScript.Proofs.LineGroups
import InstallScript.Proofs.FaultPlaces
import InstallScript.Proofs.Counting
import InstallScript.Proofs.CompiledNames
import InstallScript.Proofs.ByteScan
import InstallScript.Proofs.ByteWords
import InstallScript.Proofs.IndexedReading
