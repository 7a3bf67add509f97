import FiscoSmart.Support.Encoding
import FiscoSmart.Support.SortedMap
import FiscoSmart.Support.Splitting

/-!
# The file system contract

`BFSPrecompiled` keeps a file system in the tables of the storage.  The name of
a table is the path of a file; the table of a directory has a row with the
serialised map of its entries.  `mkdir` and `link` call `touch` as an external
call, which builds the missing directories and enters the new file into its
directory.
-/

namespace FiscoSmart.Precompiled.Bfs

open Support
open MonadExcept (ofExcept)

/-! ## Tables -/

inductive FileType
  | directory
  | contract
  | link
deriving DecidableEq

def bfsTypeSet : List (Bytes × FileType) :=
  [(ascii "directory", .directory), (ascii "contract", .contract), (ascii "link", .link)]

/-- The rows of a table that the contract reads. -/
structure FileTable where
  /-- `FS_KEY_TYPE`. -/
  type : Option FileType
  /-- `FS_KEY_SUB`, decoded. -/
  sub : Option (SortedMap Bytes FileType)
  /-- `FS_LINK_ADDRESS`. -/
  linkAddress : Option Bytes
  /-- `FS_LINK_ABI`. -/
  linkAbi : Option Bytes
  /-- `ACCOUNT_CODE_HASH`. -/
  codeHash : Option Bytes
  /-- `ACCOUNT_FROZEN`. -/
  frozen : Option Bytes

def FileTable.blank : FileTable := ⟨none, none, none, none, none, none⟩

def FileTable.dir (sub : SortedMap Bytes FileType) : FileTable :=
  { FileTable.blank with type := some .directory, sub := some sub }

abbrev FileSystem := Bytes → Option FileTable

inductive Exception
  | precompiledError (message : String)
  | outOfRange
  | tableExists
  | badOptionalAccess
deriving DecidableEq

abbrev Call := EStateM Exception FileSystem

def openTable (tableName : Bytes) : Call (Option FileTable) := return (← get) tableName

def setTable (tableName : Bytes) (table : FileTable) : Call PUnit :=
  modify fun fs => Function.update fs tableName (some table)

def createTable (tableName : Bytes) : Call PUnit := do
  if (← openTable tableName).isSome then throw .tableExists
  else setTable tableName .blank

/-! ## Paths -/

def slash : Byte := 47

def fsRoot : Bytes := [slash]

def fsPathMaxLength : ℕ := 56

def fsPathMaxLevel : ℕ := 6

/-- The path without a slash at its beginning and at its end; `at` throws where
nothing else is left. -/
def trimSlashes (path : Bytes) : Except Exception Bytes :=
  let absoluteDir := if path.head? = some slash then path.tail else path
  match absoluteDir.getLast? with
  | none => .error .outOfRange
  | some c => .ok (if c = slash then absoluteDir.dropLast else absoluteDir)

def isAlphanumeric (c : Byte) : Bool :=
  (48 ≤ c.val ∧ c.val ≤ 57) ∨ (65 ≤ c.val ∧ c.val ≤ 90) ∨ (97 ≤ c.val ∧ c.val ≤ 122)

/-- The characters that a file name must not contain. -/
def forbidden : Bytes := ascii "><*?/=+()$\"'"

/-- A letter or a digit, followed by characters that are not forbidden. -/
def checkFieldNameValidate : Bytes → Bool
  | [] => false
  | c :: rest => isAlphanumeric c && rest.all (· ∉ forbidden)

def checkPathValid (path : Bytes) : Except Exception Bool := do
  if path = [] then return false
  if fsPathMaxLength < path.length then return false
  if path = fsRoot then return true
  let absoluteDir ← trimSlashes path
  let pathList := splitTokens slash absoluteDir
  if fsPathMaxLevel < pathList.length ∨ pathList = [] then return false
  return pathList.all checkFieldNameValidate

def getParentDirAndBaseName (absolutePath : Bytes) : Except Exception (Bytes × Bytes) := do
  if absolutePath = fsRoot then return (fsRoot, fsRoot)
  let absoluteDir ← trimSlashes absolutePath
  let dirList := splitTokens slash absoluteDir
  return (slash :: fsRoot.intercalate dirList.dropLast, dirList.getLastD [])

/-- The name of an entry of a directory. -/
def childPath (root name : Bytes) : Bytes :=
  (if root = fsRoot then root else root ++ fsRoot) ++ name

/-! ## Touching files -/

/-- The loop of `recursiveBuildDir`. -/
def buildDirs (root : Bytes) : List Bytes → Call Bool
  | [] => return true
  | dir :: dirList => do
    match ← openTable root with
    | none => return false
    | some table =>
      let newTableName := childPath root dir
      if table.type.isNone then return false
      match ← openTable newTableName with
      | some nextDirTable =>
        if nextDirTable.type = some .directory then buildDirs newTableName dirList
        else return false
      | none =>
        match table.sub with
        | none => throw .badOptionalAccess
        | some bfsInfo =>
          setTable newTableName (.dir .empty)
          setTable root { table with sub := some (bfsInfo.emplace dir .directory) }
          buildDirs newTableName dirList

def recursiveBuildDir (absoluteDir : Bytes) : Call Bool := do
  if absoluteDir = [] then return false
  let dir ← ofExcept (trimSlashes absoluteDir)
  buildDirs fsRoot (splitTokens slash dir)

def userAppsPrefix : Bytes := ascii "/apps/"

def userTablePrefix : Bytes := ascii "/tables/"

/-! ### Return codes -/

def codeSuccess : ℤ := 0

def codeAddressOrVersionError : ℤ := -51202

def codeFileAlreadyExist : ℤ := -53002

def codeFileBuildDirFailed : ℤ := -53003

def codeFileInvalidPath : ℤ := -53005

def codeFileInvalidType : ℤ := -53006

/-- The entry in the map of the parent directory; an entry that is already there
stays as it is. -/
def addSubEntry (parentDir baseName : Bytes) (type : FileType) : Call PUnit := do
  match ← openTable parentDir with
  | none => throw .badOptionalAccess
  | some table =>
    match table.sub with
    | none => throw .badOptionalAccess
    | some bfsInfo =>
      setTable parentDir { table with sub := some (bfsInfo.emplace baseName type) }

/-- The part of `touch` that writes. -/
def buildFile (parentDir baseName : Bytes) (type : FileType) : Call ℤ := do
  if ← recursiveBuildDir parentDir then
    if type = .directory then return codeSuccess
    else
      addSubEntry parentDir baseName type
      return codeSuccess
  else throw (.precompiledError "Recursive build bfs dir error.")

def touch (absolutePath type : Bytes) : Call ℤ := do
  if ¬ (← ofExcept (checkPathValid absolutePath)) then return codeFileInvalidPath
  match bfsTypeSet.lookup type with
  | none => return codeFileInvalidType
  | some type =>
    if ¬ userAppsPrefix <+: absolutePath ∧ ¬ userTablePrefix <+: absolutePath then
      return codeFileInvalidPath
    else if type = .directory then buildFile absolutePath [] type
    else
      let (parentDir, baseName) ← ofExcept (getParentDirAndBaseName absolutePath)
      buildFile parentDir baseName type

/-! ## Calls -/

/-- `callPrecompiled`: a call that throws is reverted. -/
def execute (x : Call ℤ) (fs : FileSystem) : Option ℤ × FileSystem :=
  match x fs with
  | .ok code fs' => (some code, fs')
  | .error _ _ => (none, fs)

/-- An external call of `touch`. -/
def externalTouchNewFile (filePath fileType : Bytes) : Call ℤ := fun fs =>
  match execute (touch filePath fileType) fs with
  | (some code, fs') => .ok code fs'
  | (none, fs') => .ok codeFileBuildDirFailed fs'

def makeDir (absolutePath : Bytes) : Call ℤ := do
  if (← openTable absolutePath).isSome then return codeFileAlreadyExist
  externalTouchNewFile absolutePath (ascii "directory")

inductive ContractStatus
  | available
  | frozen
  | addressNonExistent
  | notContractAddress
deriving DecidableEq

def getContractStatus (tableName : Bytes) : Call ContractStatus := do
  match ← openTable tableName with
  | none => return .addressNonExistent
  | some table =>
    match table.codeHash with
    | none => return .available
    | some codeHash =>
      if codeHash.all (· = 0) then return .notContractAddress
      if table.frozen = some (ascii "true") then return .frozen
      return .available

def getContractTableName (address : Bytes) : Bytes :=
  userAppsPrefix ++ if address.head? = some slash then address.tail else address

/-- `boost::trim`. -/
def trim (s : Bytes) : Bytes :=
  let isSpace (c : Byte) : Bool := c.val = 32 ∨ (9 ≤ c.val ∧ c.val ≤ 13)
  ((s.dropWhile isSpace).reverse.dropWhile isSpace).reverse

def trimHexPrefix (hex : Bytes) : Bytes :=
  if ascii "0x" <+: hex then hex.drop 2 else hex

def userTableFieldValueMaxLength : ℕ := 16 * 1024 * 1024 - 1

/-- The checks of `checkLinkParam` on the trimmed name and version. -/
def checkLinkParam (contractAddress contractName contractVersion contractAbi : Bytes) :
    Call ℤ := do
  if (← getContractStatus (getContractTableName contractAddress)) ≠ .available then
    return codeAddressOrVersionError
  if slash ∈ contractVersion ∨ slash ∈ contractName then return codeAddressOrVersionError
  if userTableFieldValueMaxLength < contractAbi.length then
    throw (.precompiledError "size of value/key greater than16777215 error code: -50006")
  else return codeSuccess

def link (isWasm : Bool) (contractName contractVersion contractAddress contractAbi : Bytes) :
    Call ℤ := do
  let contractAddress := if isWasm then contractAddress else trimHexPrefix contractAddress
  let contractName := trim contractName
  let contractVersion := trim contractVersion
  let validCode ← checkLinkParam contractAddress contractName contractVersion contractAbi
  let linkTableName := userAppsPrefix ++ contractName ++ fsRoot ++ contractVersion
  if validCode < 0 then return validCode
  if ¬ (← ofExcept (checkPathValid linkTableName)) then return codeFileInvalidPath
  match ← openTable linkTableName with
  | some linkTable =>
    if linkTable.type = some .link then
      setTable linkTableName
        { linkTable with linkAddress := some contractAddress, linkAbi := some contractAbi }
      return codeSuccess
    else return codeFileAlreadyExist
  | none =>
    let response ← externalTouchNewFile linkTableName (ascii "link")
    if response ≠ 0 then return codeFileBuildDirFailed
    else
      createTable linkTableName
      setTable linkTableName { FileTable.blank with
          type := some .link, linkAddress := some contractAddress, linkAbi := some contractAbi }
      return codeSuccess

inductive Request
  | mkdir (absolutePath : Bytes)
  | link (contractName contractVersion contractAddress contractAbi : Bytes)
  | touch (absolutePath type : Bytes)

/-- `BFSPrecompiled::call`. -/
def call (isWasm : Bool) : Request → Call ℤ
  | .mkdir absolutePath => makeDir absolutePath
  | .link contractName contractVersion contractAddress contractAbi =>
    link isWasm contractName contractVersion contractAddress contractAbi
  | .touch absolutePath type => touch absolutePath type

def afterCalls (isWasm : Bool) (requests : List Request) (fs : FileSystem) : FileSystem :=
  requests.foldl (fun fs request => (execute (call isWasm request) fs).2) fs

/-! ## The initial file system -/

/-- The directory of the system contracts, `FS_SYS_BIN`. -/
def fsSysBin : Bytes := ascii "/sys"

/-- The names that `buildDir` lists in `FS_SYS_BIN`. -/
def sysContracts : List Bytes :=
  [ascii "status", ascii "consensus", ascii "auth", ascii "kv_storage", ascii "crypto_tools",
    ascii "bfs", ascii "table_manager"]

def subMap (names : List Bytes) (type : FileType) : SortedMap Bytes FileType :=
  names.foldl (fun sub name => sub.emplace name type) .empty

def rootNames : List Bytes := [ascii "usr", ascii "apps", ascii "sys", ascii "tables"]

/-- `Ledger::createFileSystemTables`. -/
def createFileSystemTables : FileSystem := fun path =>
  if path = fsRoot then some (.dir (subMap rootNames .directory))
  else if path = ascii "/usr" ∨ path = ascii "/apps" ∨ path = ascii "/tables" then
    some (.dir .empty)
  else if path = fsSysBin then some (.dir (subMap sysContracts .contract))
  else none

end FiscoSmart.Precompiled.Bfs
