import InstallScript.Callee

/-!
The variables and primitives of the target language that a script can use by name.
-/

namespace InstallScript.Catalogue

/-- The target language's own variables, each in lower case and as it is spelled there. -/
def vars : List Variable :=
  [("r0", "R0"), ("r1", "R1"), ("r2", "R2"), ("r3", "R3"), ("r4", "R4"), ("r5", "R5"), ("r6", "R6"),
    ("r7", "R7"), ("r8", "R8"), ("r9", "R9"), ("instdir", "INSTDIR"), ("outdir", "OUTDIR"),
    ("cmdline", "CMDLINE"), ("language", "LANGUAGE"), ("pluginsdir", "PLUGINSDIR"),
    ("exedir", "EXEDIR"), ("temp", "TEMP")].map fun p => ⟨p.1, .global, some p.2⟩

/-- Instructions: name, least and greatest number of arguments, convention, slot of the result. -/
def instructions : List Command :=
  [.instruction "Abort" 0 1 .void 0,
    .instruction "ClearErrors" 0 0 .void 0,
    .instruction "CopyFiles" 2 2 .errorFlag 0,
    .instruction "CreateDirectory" 1 1 .errorFlag 0,
    .instruction "CreateShortCut" 2 8 .errorFlag 0,
    .instruction "Delete" 1 1 .errorFlag 0,
    .instruction "DeleteRegKey" 2 2 .errorFlag 0,
    .instruction "DeleteRegValue" 3 3 .errorFlag 0,
    .instruction "DetailPrint" 1 1 .void 0,
    .instruction "Exec" 1 1 .errorFlag 0,
    .instruction "ExecShell" 2 3 .errorFlag 0,
    .instruction "ExecWait" 1 1 .optional 1,
    .instruction "ExpandEnvStrings" 1 1 .required 0,
    .instruction "FileClose" 1 1 .void 0,
    .instruction "FileOpen" 2 2 .required 0,
    .instruction "FileRead" 1 2 .required 1,
    .instruction "FileWrite" 2 2 .errorFlag 0,
    .instruction "GetFullPathName" 1 1 .required 0,
    .instruction "GetTempFileName" 0 1 .required 0,
    .instruction "IntFmt" 2 2 .required 0,
    .instruction "IntOp" 2 3 .required 0,
    .instruction "Quit" 0 0 .void 0,
    .instruction "ReadEnvStr" 1 1 .required 0,
    .instruction "ReadINIStr" 3 3 .required 0,
    .instruction "ReadRegDWORD" 3 3 .required 0,
    .instruction "ReadRegStr" 3 3 .required 0,
    .instruction "Reboot" 0 0 .void 0,
    .instruction "Rename" 2 2 .errorFlag 0,
    .instruction "RMDir" 1 1 .errorFlag 0,
    .instruction "SearchPath" 1 1 .required 0,
    .instruction "SetErrors" 0 0 .void 0,
    .instruction "SetOutPath" 1 1 .void 0,
    .instruction "SetShellVarContext" 1 1 .void 0,
    .instruction "Sleep" 1 1 .void 0,
    .instruction "StrCpy" 1 3 .required 0,
    .instruction "StrLen" 1 1 .required 0,
    .instruction "WriteINIStr" 4 4 .errorFlag 0,
    .instruction "WriteRegDWORD" 4 4 .errorFlag 0,
    .instruction "WriteRegStr" 4 4 .errorFlag 0,
    .instruction "WriteUninstaller" 1 1 .void 0]

/-- Macros of the file functions header: name, number of arguments, slot of the result. -/
def headers : List Command :=
  [.header "GetBaseName" 1 1,
    .header "GetExePath" 0 0,
    .header "GetFileExt" 1 1,
    .header "GetFileName" 1 1,
    .header "GetOptions" 2 2,
    .header "GetParameters" 0 0,
    .header "GetParent" 1 1]

/-- Everything a script can call without declaring it. -/
def callees : List Callee :=
  (instructions ++ headers).map .command ++ [.messageBox]

end InstallScript.Catalogue
