import FiscoSmart.Support.Encoding
import FiscoSmart.Support.SortedMap

/-!
# The access control lists of contract methods

`ContractAuthMgrPrecompiled` keeps, for each contract, a table with the mode of
every function (white list or black list) and one list of accounts per mode.
Both lists are shared by all functions of the contract: a row holds a map from
functions to their accounts.

A function in white-list mode that was never opened or closed is closed to
everybody as long as the white list is empty.  The first entry of any other
function opens it to everybody, since `checkMethodAuth` then takes the missing
function for one without access control.
-/

namespace FiscoSmart.Precompiled.ContractAuth

open Support SortedMap

variable {mode : BitVec 8} {b : Bytes}

/-! ## The contract -/

/-- A function selector: its four bytes, read as a number. -/
abbrev Selector := Fin (2 ^ 32)

abbrev AuthTypeMap := SortedMap Selector (BitVec 8)

abbrev MethodAuthMap := SortedMap Selector (SortedMap Bytes Bool)

/-- The auth table of a contract.  A row may be missing, its value may be the
empty string, or the value encodes a map. -/
structure AuthTable where
  methodAuthType : Option (Option AuthTypeMap)
  methodAuthWhite : Option (Option MethodAuthMap)
  methodAuthBlack : Option (Option MethodAuthMap)

/-- The rows that `creatAuthTable` writes. -/
def creatAuthTable : AuthTable where
  methodAuthType := some none
  methodAuthWhite := some none
  methodAuthBlack := some none

def whiteListMode : BitVec 8 := 1

def blackListMode : BitVec 8 := 2

inductive Code
  | success
  | tableNotExist
  | tableAuthRowNotExist
  | tableErrorAuthType
deriving DecidableEq

/-- The type of a function; `none` is `CODE_TABLE_AUTH_TYPE_NOT_EXIST`. -/
def getMethodAuthType (table : AuthTable) (func : Selector) : Option (BitVec 8) :=
  match table.methodAuthType with
  | some (some authTypeMap) => authTypeMap.find? func
  | _ => none

/-- The row that belongs to a type: every type but the white list reads the
black list. -/
def AuthTable.getRow (table : AuthTable) (type : BitVec 8) : Option (Option MethodAuthMap) :=
  if type = whiteListMode then table.methodAuthWhite else table.methodAuthBlack

def AuthTable.setRow (table : AuthTable) (type : BitVec 8) (authMap : MethodAuthMap) :
    AuthTable :=
  if type = whiteListMode then { table with methodAuthWhite := some (some authMap) }
  else { table with methodAuthBlack := some (some authMap) }

/-- The map in a row; a missing row and an empty value are the empty map. -/
def getMethodAuth (table : AuthTable) (type : BitVec 8) : MethodAuthMap :=
  match table.getRow type with
  | some (some authMap) => authMap
  | _ => .empty

/-- `setMethodAuthType`.  The type is not checked. -/
def setMethodAuthType (table : Option AuthTable) (func : Selector) (type : BitVec 8) :
    Code × Option AuthTable :=
  match table with
  | none => (.tableNotExist, none)
  | some table =>
    match table.methodAuthType with
    | none => (.tableAuthRowNotExist, some table)
    | some value =>
      let methAuthTypeMap := (value.getD .empty).insert func type
      (.success, some { table with methodAuthType := some (some methAuthTypeMap) })

/-- Bind an account of a function to an access. -/
def setAccess (authMap : MethodAuthMap) (func : Selector) (account : Bytes) (access : Bool) :
    MethodAuthMap :=
  match authMap.find? func with
  | some users => authMap.insert func (users.insert account access)
  | none => authMap.insert func (SortedMap.empty.insert account access)

/-- `setMethodAuth`, which both `openMethodAuth` and `closeMethodAuth` call. -/
def setMethodAuth (table : Option AuthTable) (isClose : Bool) (func : Selector)
    (account : Bytes) : Code × Option AuthTable :=
  match table with
  | none => (.tableNotExist, none)
  | some table =>
    match getMethodAuthType table func with
    | none => (.tableErrorAuthType, some table)
    | some authType =>
      if authType = whiteListMode ∨ authType = blackListMode then
        let value := (table.getRow authType).getD none
        let access := if isClose then authType == blackListMode else authType == whiteListMode
        (.success, some (table.setRow authType (setAccess (value.getD .empty) func account access)))
      else (.tableErrorAuthType, some table)

def checkMethodAuth (table : Option AuthTable) (func : Selector) (account : Bytes) : Bool :=
  match table with
  | none => true
  | some table =>
    match getMethodAuthType table func with
    | none => true
    | some type =>
      let authMap := getMethodAuth table type
      if authMap.isEmpty then type == blackListMode
      else
        match authMap.find? func with
        | none => true
        | some users =>
          match users.find? account with
          | none => type == blackListMode
          | some access => if type = blackListMode then !access else access

/-! ## Histories of a contract -/

/-- The operations on the lists: `openMethodAuth` and `closeMethodAuth`
differ in `isClose`. -/
inductive Operation
  | setMethodAuthType (func : Selector) (type : BitVec 8)
  | setMethodAuth (isClose : Bool) (func : Selector) (account : Bytes)
deriving DecidableEq

variable {history : List Operation} {type mode' : BitVec 8} {access : Bool}

namespace Operation

def openMethodAuth (func : Selector) (account : Bytes) : Operation :=
  .setMethodAuth false func account

def closeMethodAuth (func : Selector) (account : Bytes) : Operation :=
  .setMethodAuth true func account

def func : Operation → Selector
  | setMethodAuthType func _ => func
  | setMethodAuth _ func _ => func

def apply (table : Option AuthTable) : Operation → Option AuthTable
  | setMethodAuthType func type => (ContractAuth.setMethodAuthType table func type).2
  | setMethodAuth isClose func account => (ContractAuth.setMethodAuth table isClose func account).2

end Operation

/-- The table of a contract after a history of operations, the newest first. -/
def tableAfter : List Operation → Option AuthTable
  | [] => some creatAuthTable
  | op :: older => op.apply (tableAfter older)

/-- The type that was set last for a function. -/
def lastType : List Operation → Selector → Option (BitVec 8)
  | [], _ => none
  | .setMethodAuthType g type :: older, func =>
    if func = g then some type else lastType older func
  | .setMethodAuth _ _ _ :: older, func => lastType older func

/-- The last operation on a function and an account that was made in the given
mode: `true` for a close, `false` for an open. -/
def lastSwitch (mode : BitVec 8) : List Operation → Selector → Bytes → Option Bool
  | [], _, _ => none
  | .setMethodAuthType _ _ :: older, func, account => lastSwitch mode older func account
  | .setMethodAuth isClose g b :: older, func, account =>
    if (func = g ∧ account = b) ∧ lastType older func = some mode then some isClose
    else lastSwitch mode older func account

/-- The function was opened or closed to some account in the given mode. -/
def Switched (mode : BitVec 8) (history : List Operation) (func : Selector) : Prop :=
  ∃ account, (lastSwitch mode history func account).isSome

def opsOn (func : Selector) (history : List Operation) : List Operation :=
  history.filter fun op => op.func = func

/-! ## Only the operations on a function count -/

variable {op : Operation} {func : Selector} {account : Bytes} {older : List Operation}

theorem opsOn_cons_of_eq (h : op.func = func) : opsOn func (op :: older) = op :: opsOn func older :=
  List.filter_cons_of_pos (by simpa using h)

theorem opsOn_cons_of_ne (h : op.func ≠ func) : opsOn func (op :: older) = opsOn func older :=
  List.filter_cons_of_neg (by simpa using h)

theorem lastType_cons_of_ne (h : op.func ≠ func) :
    lastType (op :: older) func = lastType older func := by
  rcases op with ⟨g, type⟩ | ⟨isClose, g, b⟩
  · exact if_neg fun heq => h heq.symm
  · rfl

theorem lastSwitch_cons_of_ne (h : op.func ≠ func) :
    lastSwitch mode (op :: older) func account = lastSwitch mode older func account := by
  rcases op with ⟨g, type⟩ | ⟨isClose, g, b⟩
  · rfl
  · exact if_neg fun heq => h heq.1.1.symm

theorem lastType_opsOn : lastType (opsOn func history) func = lastType history func := by
  induction history with
  | nil => rfl
  | cons op older ih =>
    by_cases hop : op.func = func
    · rw [opsOn_cons_of_eq hop]
      rcases op with ⟨g, type⟩ | ⟨isClose, g, b⟩
      · simp [lastType, ih]
      · exact ih
    · rw [opsOn_cons_of_ne hop, lastType_cons_of_ne hop, ih]

theorem lastSwitch_opsOn :
    lastSwitch mode (opsOn func history) func account =
      lastSwitch mode history func account := by
  induction history with
  | nil => rfl
  | cons op older ih =>
    by_cases hop : op.func = func
    · rw [opsOn_cons_of_eq hop]
      rcases op with ⟨g, type⟩ | ⟨isClose, g, b⟩
      · exact ih
      · simp [lastSwitch, lastType_opsOn, ih]
    · rw [opsOn_cons_of_ne hop, lastSwitch_cons_of_ne hop, ih]

variable {other : List Operation} {authMap : MethodAuthMap} {g : Selector}

section

variable (h : opsOn func other = opsOn func history)

include h

theorem lastType_congr : lastType other func = lastType history func := by
  rw [← lastType_opsOn, h, lastType_opsOn]

theorem lastSwitch_congr :
    lastSwitch mode other func account = lastSwitch mode history func account := by
  rw [← lastSwitch_opsOn, h, lastSwitch_opsOn]

theorem switched_congr : Switched mode other func ↔ Switched mode history func := by
  simp [Switched, lastSwitch_congr h]

end

theorem opsOn_opsOn : opsOn func (opsOn func history) = opsOn func history := by
  simp [opsOn]

theorem not_switched_opsOn (h : g ≠ func) : ¬ Switched mode (opsOn func history) g := by
  have hnone : opsOn g (opsOn func history) = [] := by
    refine List.filter_eq_nil_iff.mpr fun op hop => ?_
    have hfunc : op.func = func := by simpa [opsOn] using (List.mem_filter.mp hop).2
    simpa [hfunc] using Ne.symm h
  rintro ⟨account, hsome⟩
  rw [← lastSwitch_opsOn, hnone] at hsome
  cases hsome

/-! ## The table holds the last operations -/

def accessOf (authMap : MethodAuthMap) (func : Selector) (account : Bytes) : Option Bool :=
  (authMap.find? func).bind fun users => users.find? account

theorem accessOf_setAccess :
    accessOf (setAccess authMap g b access) func account =
      if func = g ∧ account = b then some access else accessOf authMap func account := by
  unfold setAccess accessOf
  by_cases hg : func = g
  · subst hg
    rcases hfind : authMap.find? func with - | users
    · have hempty : (SortedMap.empty : SortedMap Bytes Bool).find? account = none := rfl
      simp [find?_insert, hempty]
    · simp [find?_insert]
  · cases hfind : authMap.find? g <;> simp [find?_insert, hg]

theorem isSome_find?_setAccess :
    ((setAccess authMap g b access).find? func).isSome ↔
      func = g ∨ (authMap.find? func).isSome := by
  unfold setAccess
  by_cases hg : func = g
  · cases authMap.find? g <;> simp [find?_insert, hg]
  · cases authMap.find? g <;> simp [find?_insert, hg]

def IsMode (mode : BitVec 8) : Prop := mode = whiteListMode ∨ mode = blackListMode

theorem black_ne_white : blackListMode ≠ whiteListMode := by decide

/-- The mode of the list that a type reads. -/
def listMode (type : BitVec 8) : BitVec 8 :=
  if type = whiteListMode then whiteListMode else blackListMode

theorem isMode_listMode (type : BitVec 8) : IsMode (listMode type) := by
  unfold listMode
  split
  · exact .inl rfl
  · exact .inr rfl

theorem listMode_of_isMode (h : IsMode mode) : listMode mode = mode := by
  rcases h with rfl | rfl
  · exact if_pos rfl
  · exact if_neg black_ne_white

variable (table : AuthTable)

theorem getMethodAuth_listMode (type : BitVec 8) :
    getMethodAuth table (listMode type) = getMethodAuth table type := by
  have hrow : table.getRow (listMode type) = table.getRow type := by
    unfold AuthTable.getRow listMode
    by_cases hwhite : type = whiteListMode
    · simp [if_pos hwhite]
    · simp [if_neg hwhite, if_neg black_ne_white]
  rw [getMethodAuth, hrow, ← getMethodAuth]

theorem getD_getRow : ((table.getRow type).getD none).getD .empty = getMethodAuth table type := by
  unfold getMethodAuth
  rcases table.getRow type with _ | _ | authMap <;> rfl

theorem getMethodAuth_setRow (h : IsMode mode) (h' : IsMode mode') :
    getMethodAuth (table.setRow mode authMap) mode' =
      if mode' = mode then authMap else getMethodAuth table mode' := by
  rcases h with rfl | rfl <;> rcases h' with rfl | rfl <;> rfl

theorem getMethodAuthType_setRow :
    getMethodAuthType (table.setRow mode authMap) func = getMethodAuthType table func := by
  unfold AuthTable.setRow
  split <;> rfl

theorem methodAuthType_setRow :
    (table.setRow mode authMap).methodAuthType = table.methodAuthType := by
  unfold AuthTable.setRow
  split <;> rfl

/-- The access that a switch in a mode writes. -/
def written (mode : BitVec 8) (isClose : Bool) : Bool :=
  if isClose then mode == blackListMode else mode == whiteListMode

/-- A table that holds what the last operations of a history said. -/
structure Reflects (history : List Operation) (table : AuthTable) : Prop where
  typeRow : table.methodAuthType.isSome
  type : ∀ func, getMethodAuthType table func = lastType history func
  access : ∀ mode, IsMode mode → ∀ func account, accessOf (getMethodAuth table mode) func account =
      (lastSwitch mode history func account).map (written mode)
  listed : ∀ mode, IsMode mode → ∀ func,
    ((getMethodAuth table mode).find? func).isSome ↔ Switched mode history func

theorem reflects_creatAuthTable : Reflects [] creatAuthTable := by
  have hempty : ∀ mode, getMethodAuth creatAuthTable mode = .empty := by
    intro mode
    unfold getMethodAuth AuthTable.getRow
    by_cases hwhite : mode = whiteListMode
    · simp [creatAuthTable]
    · simp [creatAuthTable]
  refine ⟨rfl, fun func => rfl, fun mode _ func account => ?_, fun mode _ func => ?_⟩
  · rw [hempty]
    rfl
  · rw [hempty]
    constructor
    · intro h
      cases h
    · rintro ⟨account, h⟩
      cases h

variable {table : AuthTable}

theorem Reflects.setMethodAuthType
    (h : Reflects history table) (func : Selector) (type : BitVec 8) :
    ∃ table', (setMethodAuthType (some table) func type).2 = some table' ∧
      Reflects (.setMethodAuthType func type :: history) table' := by
  obtain ⟨value, hvalue⟩ := Option.isSome_iff_exists.mp h.typeRow
  refine ⟨{ table with methodAuthType := some (some ((value.getD .empty).insert func type)) },
    ?_, ⟨rfl, fun g => ?_, h.access, h.listed⟩⟩
  · simp [ContractAuth.setMethodAuthType, hvalue]
  · have htype := h.type g
    simp only [getMethodAuthType, hvalue] at htype
    simp only [getMethodAuthType, find?_insert, lastType, ← htype]
    rcases value with - | authTypeMap
    · rfl
    · rfl

theorem lastSwitch_cons_switch (htype : lastType history func = some mode) {isClose : Bool} :
    lastSwitch mode' (.setMethodAuth isClose func account :: history) g b =
      if mode' = mode ∧ g = func ∧ b = account then some isClose
      else lastSwitch mode' history g b := by
  have hiff : ((g = func ∧ b = account) ∧ lastType history g = some mode') ↔
      (mode' = mode ∧ g = func ∧ b = account) := by
    constructor
    · rintro ⟨⟨rfl, rfl⟩, h⟩
      exact ⟨Option.some.inj (h.symm.trans htype), rfl, rfl⟩
    · rintro ⟨rfl, rfl, rfl⟩
      exact ⟨⟨rfl, rfl⟩, htype⟩
  simp [lastSwitch, hiff]

theorem switched_cons_switch
    (htype : lastType history func = some mode) (isClose : Bool) (account : Bytes)
    (mode' : BitVec 8) (g : Selector) :
    Switched mode' (.setMethodAuth isClose func account :: history) g ↔
      (mode' = mode ∧ g = func) ∨ Switched mode' history g := by
  simp only [Switched, lastSwitch_cons_switch htype]
  constructor
  · rintro ⟨b, hb⟩
    split at hb
    · rename_i hnew
      exact .inl ⟨hnew.1, hnew.2.1⟩
    · exact .inr ⟨b, hb⟩
  · rintro (⟨hmode, hg⟩ | ⟨b, hb⟩)
    · exact ⟨account, by rw [if_pos ⟨hmode, hg, rfl⟩]; rfl⟩
    · refine ⟨b, ?_⟩
      split
      · rfl
      · exact hb

theorem Reflects.setRow (h : Reflects history table) (hmode : IsMode mode) (isClose : Bool)
    (htype : lastType history func = some mode) (account : Bytes) :
    Reflects (.setMethodAuth isClose func account :: history) (table.setRow mode
        (setAccess (getMethodAuth table mode) func account (written mode isClose))) := by
  refine ⟨?_, fun g => ?_, fun mode' hmode' g b => ?_, fun mode' hmode' g => ?_⟩
  · rw [methodAuthType_setRow]
    exact h.typeRow
  · rw [getMethodAuthType_setRow, h.type g]
    rfl
  · rw [getMethodAuth_setRow _ hmode hmode', lastSwitch_cons_switch htype]
    by_cases heq : mode' = mode
    · subst heq
      simp only [if_true, true_and, accessOf_setAccess, h.access _ hmode]
      split
      · rfl
      · rfl
    · simp [heq, false_and, h.access _ hmode']
  · rw [getMethodAuth_setRow _ hmode hmode', switched_cons_switch htype]
    by_cases heq : mode' = mode
    · subst heq
      simp [true_and, isSome_find?_setAccess, h.listed _ hmode]
    · simp [heq, false_and, false_or, h.listed _ hmode']

theorem Reflects.refused (h : Reflects history table) (isClose : Bool)
    (htype : ∀ mode, IsMode mode → lastType history func ≠ some mode) (account : Bytes) :
    Reflects (.setMethodAuth isClose func account :: history) table := by
  have hswitch : ∀ mode, IsMode mode → ∀ g b,
      lastSwitch mode (.setMethodAuth isClose func account :: history) g b =
        lastSwitch mode history g b := by
    intro mode hmode g b
    refine if_neg ?_
    rintro ⟨⟨rfl, rfl⟩, h⟩
    exact htype mode hmode h
  refine ⟨h.typeRow, h.type, fun mode hmode g b => ?_, fun mode hmode g => ?_⟩
  · rw [hswitch mode hmode, h.access mode hmode]
  · rw [h.listed mode hmode]
    simp [Switched, hswitch mode hmode]

theorem Reflects.setMethodAuth
    (h : Reflects history table) (isClose : Bool) (func : Selector) (account : Bytes) :
    ∃ table', (setMethodAuth (some table) isClose func account).2 = some table' ∧
      Reflects (.setMethodAuth isClose func account :: history) table' := by
  have hlast := h.type func
  rcases htype : getMethodAuthType table func with - | type
  · refine ⟨table, by simp only [ContractAuth.setMethodAuth, htype], h.refused isClose ?_ account⟩
    intro mode _ hsome
    rw [← hlast, htype] at hsome
    cases hsome
  · by_cases hmode : IsMode type
    · refine ⟨_, ?_, h.setRow hmode isClose (hlast.symm.trans htype) account⟩
      have hif : type = whiteListMode ∨ type = blackListMode := hmode
      simp only [ContractAuth.setMethodAuth, htype, if_pos hif, getD_getRow]
      rfl
    · have hif : ¬ (type = whiteListMode ∨ type = blackListMode) := hmode
      refine ⟨table, by simp only [ContractAuth.setMethodAuth, htype, if_neg hif],
        h.refused isClose ?_ account⟩
      intro mode hmode' hsome
      rw [← hlast, htype] at hsome
      exact hmode (Option.some.inj hsome ▸ hmode')

theorem exists_reflects (history : List Operation) :
    ∃ table, tableAfter history = some table ∧ Reflects history table := by
  induction history with
  | nil => exact ⟨creatAuthTable, rfl, reflects_creatAuthTable⟩
  | cons op older ih =>
    obtain ⟨table, htable, h⟩ := ih
    simp only [tableAfter, htable]
    rcases op with ⟨func, type⟩ | ⟨isClose, func, account⟩
    · exact h.setMethodAuthType func type
    · exact h.setMethodAuth isClose func account

/-! ## What the check answers -/

/-- The list that a type reads is empty exactly if no function was switched in
its mode. -/
theorem Reflects.isEmpty_iff (h : Reflects history table) (type : BitVec 8) :
    (getMethodAuth table type).isEmpty = true ↔ ∀ g, ¬ Switched (listMode type) history g := by
  rw [← getMethodAuth_listMode, SortedMap.isEmpty_iff]
  refine forall_congr' fun g => ?_
  rw [← h.listed _ (isMode_listMode type), Option.not_isSome_iff_eq_none]

theorem checkMethodAuth_of_type_none (htype : lastType history func = none) (account : Bytes) :
    checkMethodAuth (tableAfter history) func account = true := by
  obtain ⟨table, htable, h⟩ := exists_reflects history
  simp [checkMethodAuth, htable, h.type func, htype]

section

variable (htype : lastType history func = some type)

include htype

/-- A function that was switched in the mode it reads is answered from its last
switch. -/
theorem checkMethodAuth_of_switched (hswitched : Switched (listMode type) history func) :
    checkMethodAuth (tableAfter history) func account =
      match lastSwitch (listMode type) history func account with
      | none => type == blackListMode
      | some isClose =>
        if type = blackListMode then !written (listMode type) isClose
        else written (listMode type) isClose := by
  obtain ⟨table, htable, h⟩ := exists_reflects history
  have hlisted := (h.listed _ (isMode_listMode type) func).mpr hswitched
  have haccess := h.access _ (isMode_listMode type) func account
  rw [getMethodAuth_listMode] at hlisted haccess
  obtain ⟨users, husers⟩ := Option.isSome_iff_exists.mp hlisted
  have hnonempty : ¬ (getMethodAuth table type).isEmpty = true := fun hempty =>
    (h.isEmpty_iff type).mp hempty func hswitched
  simp only [accessOf, husers, Option.bind_some] at haccess
  simp only [checkMethodAuth, htable, h.type func, htype, if_neg hnonempty, husers, haccess]
  cases lastSwitch (listMode type) history func account <;> rfl

/-- A function that was not switched in the mode it reads is open as soon as
some function was. -/
theorem checkMethodAuth_of_other (hfunc : ¬ Switched (listMode type) history func)
    (hother : Switched (listMode type) history g) :
    checkMethodAuth (tableAfter history) func account = true := by
  obtain ⟨table, htable, h⟩ := exists_reflects history
  have hlisted := h.listed _ (isMode_listMode type)
  rw [getMethodAuth_listMode] at hlisted
  have hnone : (getMethodAuth table type).find? func = none := by
    have hnot := mt (hlisted func).mp hfunc
    simpa using hnot
  have hnonempty : ¬ (getMethodAuth table type).isEmpty = true := fun hempty =>
    (h.isEmpty_iff type).mp hempty g hother
  simp [checkMethodAuth, htable, h.type func, htype, if_neg hnonempty, hnone]

/-- As long as no function was switched in the mode, only a black list lets
accounts pass. -/
theorem checkMethodAuth_of_unswitched (hnone : ∀ g, ¬ Switched (listMode type) history g) :
    checkMethodAuth (tableAfter history) func account = (type == blackListMode) := by
  obtain ⟨table, htable, h⟩ := exists_reflects history
  have hempty := (h.isEmpty_iff type).mpr hnone
  simp [checkMethodAuth, htable, h.type func, htype, hempty]

end

/-! ## The last operation decides -/

/-- What access control promises for a function after a history: an open
function without a type, the white list and the black list by the last
operation, and no influence of the other functions. -/
structure Controlled (history : List Operation) (func : Selector) : Prop where
  unset : lastType history func = none →
    ∀ account, checkMethodAuth (tableAfter history) func account = true
  white : lastType history func = some whiteListMode → ∀ account,
    (checkMethodAuth (tableAfter history) func account = true ↔
      lastSwitch whiteListMode history func account = some false)
  black : lastType history func = some blackListMode → ∀ account,
    (checkMethodAuth (tableAfter history) func account = false ↔
      lastSwitch blackListMode history func account = some true)
  own : ∀ other, opsOn func other = opsOn func history → ∀ account,
    checkMethodAuth (tableAfter other) func account =
      checkMethodAuth (tableAfter history) func account

/-- A function in white-list mode or with an unknown type was opened or closed
in the mode whose list it reads. -/
def SwitchedUnlessBlack (history : List Operation) (func : Selector) : Prop :=
  ∀ type, lastType history func = some type → type ≠ blackListMode →
    Switched (listMode type) history func

theorem listMode_white : listMode whiteListMode = whiteListMode :=
  listMode_of_isMode (.inl rfl)

theorem listMode_black : listMode blackListMode = blackListMode :=
  listMode_of_isMode (.inr rfl)

theorem lastSwitch_eq_none_of_not_switched (h : ¬ Switched mode history func) :
    lastSwitch mode history func account = none := by
  simpa using fun hsome => h ⟨account, hsome⟩

/-- In black-list mode the last switch decides, whatever happened to the other
functions. -/
theorem checkMethodAuth_black (htype : lastType history func = some blackListMode) :
    checkMethodAuth (tableAfter history) func account =
      (lastSwitch blackListMode history func account != some true) := by
  by_cases hfunc : Switched blackListMode history func
  · rw [checkMethodAuth_of_switched htype (listMode_black.symm ▸ hfunc), listMode_black]
    rcases lastSwitch blackListMode history func account with _ | _ | _ <;> rfl
  · rw [lastSwitch_eq_none_of_not_switched hfunc]
    have hlist := listMode_black
    by_cases hother : ∃ g, Switched blackListMode history g
    · obtain ⟨g, hg⟩ := hother
      exact checkMethodAuth_of_other htype (hlist.symm ▸ hfunc) (hlist.symm ▸ hg)
    · push Not at hother
      exact checkMethodAuth_of_unswitched htype (hlist.symm ▸ hother)

theorem checkMethodAuth_white (htype : lastType history func = some whiteListMode)
    (hfunc : Switched whiteListMode history func) :
    checkMethodAuth (tableAfter history) func account =
      (lastSwitch whiteListMode history func account == some false) := by
  rw [checkMethodAuth_of_switched htype (listMode_white.symm ▸ hfunc), listMode_white]
  rcases lastSwitch whiteListMode history func account with _ | _ | _ <;> rfl

theorem checkMethodAuth_congr
    (h : SwitchedUnlessBlack history func) (hops : opsOn func other = opsOn func history)
    (account : Bytes) : checkMethodAuth (tableAfter other) func account =
      checkMethodAuth (tableAfter history) func account := by
  have htype' := lastType_congr hops
  rcases htype : lastType history func with - | type
  · rw [checkMethodAuth_of_type_none htype, checkMethodAuth_of_type_none (htype'.trans htype)]
  · by_cases hblack : type = blackListMode
    · subst hblack
      rw [checkMethodAuth_black htype, checkMethodAuth_black (htype'.trans htype),
        lastSwitch_congr hops]
    · have hfunc := h type htype hblack
      have hfunc' := (switched_congr hops).mpr hfunc
      rw [checkMethodAuth_of_switched htype hfunc,
        checkMethodAuth_of_switched (htype'.trans htype) hfunc', lastSwitch_congr hops]

/-- Put another function into a mode and open it to an account. -/
def switchOther (func : Selector) (mode : BitVec 8) (history : List Operation) :
    List Operation :=
  .openMethodAuth (func + 1) [] :: .setMethodAuthType (func + 1) mode :: history

theorem succ_ne : func + 1 ≠ func := by
  intro h
  have hval := congrArg Fin.val h
  rw [Fin.val_add_eq_ite] at hval
  have hone : ((1 : Selector) : ℕ) = 1 := rfl
  split at hval <;> omega

theorem opsOn_switchOther (func : Selector) (mode : BitVec 8) (history : List Operation) :
    opsOn func (switchOther func mode history) = opsOn func history := by
  have hopen : (Operation.openMethodAuth (func + 1) []).func ≠ func := succ_ne
  have htype : (Operation.setMethodAuthType (func + 1) mode).func ≠ func := succ_ne
  rw [switchOther, opsOn_cons_of_ne hopen, opsOn_cons_of_ne htype]

theorem switched_switchOther : Switched mode (switchOther func mode history) (func + 1) := by
  have htype : lastType (.setMethodAuthType (func + 1) mode :: history) (func + 1) = some mode :=
    if_pos rfl
  exact (switched_cons_switch htype false [] mode (func + 1)).mpr (.inl ⟨rfl, rfl⟩)

/-- A function that was not switched in the mode it reads is closed as long as
it is alone, and opened by a switch of another function. -/
theorem checkMethodAuth_depends (htype : lastType history func = some type)
    (hblack : type ≠ blackListMode) (hfunc : ¬ Switched (listMode type) history func)
    (account : Bytes) : checkMethodAuth (tableAfter (opsOn func history)) func account = false ∧
      checkMethodAuth (tableAfter (switchOther func (listMode type) history)) func account =
        true := by
  constructor
  · have hnone : ∀ g, ¬ Switched (listMode type) (opsOn func history) g := by
      intro g
      by_cases hg : g = func
      · subst hg
        rwa [switched_congr opsOn_opsOn]
      · exact not_switched_opsOn hg
    rw [checkMethodAuth_of_unswitched (lastType_opsOn.trans htype) hnone]
    simpa using hblack
  · have hops := opsOn_switchOther func (listMode type) history
    exact checkMethodAuth_of_other ((lastType_congr hops).trans htype)
      (mt (switched_congr hops).mp hfunc) switched_switchOther

/-- The last operation on a function decides the answers for it exactly if the
function was opened or closed in the mode whose list it reads, unless it is in
black-list mode or without a type. -/
theorem controlled_iff (history : List Operation) (func : Selector) :
    Controlled history func ↔ SwitchedUnlessBlack history func := by
  constructor
  · intro h type htype hblack
    by_contra hfunc
    obtain ⟨hclosed, hopen⟩ := checkMethodAuth_depends htype hblack hfunc []
    rw [h.own _ opsOn_opsOn] at hclosed
    rw [h.own _ (opsOn_switchOther func _ history), hclosed] at hopen
    cases hopen
  · intro h
    refine ⟨checkMethodAuth_of_type_none, fun htype account => ?_, fun htype account => ?_,
      fun other => checkMethodAuth_congr h⟩
    · have hfunc := h _ htype black_ne_white.symm
      rw [checkMethodAuth_white htype hfunc, beq_iff_eq]
    · rw [checkMethodAuth_black htype, bne_eq_false_iff_eq]

/-- Two functions in white-list mode, and the second is opened to one account:
the first is then open to an account that was never given access. -/
theorem secondFunction_opens_first :
    let history : List Operation :=
      [.openMethodAuth 2 [1], .setMethodAuthType 2 whiteListMode,
        .setMethodAuthType 1 whiteListMode]
    lastType history 1 = some whiteListMode ∧ lastSwitch whiteListMode history 1 [7] = none ∧
      checkMethodAuth (tableAfter history) 1 [7] = true ∧
      checkMethodAuth (tableAfter (opsOn 1 history)) 1 [7] = false := by
  decide +kernel

end FiscoSmart.Precompiled.ContractAuth
