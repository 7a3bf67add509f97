import FiscoSmart.Support.Encoding
import FiscoSmart.Support.SortedMap

/-!
# The access control of deployments

`AuthManagerPrecompiled` keeps the deploy type and one list of accounts per mode in the
table `/apps`.  While no list is in force, `setDeployAuth` binds the account in the white
list to `false`, whether it opens or closes it.
-/

namespace FiscoSmart.Precompiled.DeployAuth

open Support

/-- The deploy type: 0 means that no list is in force. -/
inductive AuthType
  | noAcl
  | whiteListMode
  | blackListMode
deriving DecidableEq

/-- The rows of `/apps`.  An empty value is an empty list. -/
structure Apps where
  aclType : AuthType := .noAcl
  aclWhite : SortedMap Bytes Bool := .empty
  aclBlack : SortedMap Bytes Bool := .empty

/-- `setDeployType`; a type above 2 is refused. -/
def setDeployType (apps : Apps) : ℕ → Apps
  | 0 => { apps with aclType := .noAcl }
  | 1 => { apps with aclType := .whiteListMode }
  | 2 => { apps with aclType := .blackListMode }
  | _ => apps

/-- `setDeployAuth`, which both `openDeployAuth` and `closeDeployAuth` call. -/
def setDeployAuth (apps : Apps) (isClose : Bool) (account : Bytes) : Apps :=
  let access := if isClose then apps.aclType == .blackListMode else apps.aclType == .whiteListMode
  if apps.aclType = .blackListMode then
    { apps with aclBlack := apps.aclBlack.insert account access }
  else { apps with aclWhite := apps.aclWhite.insert account access }

def checkDeployAuth (apps : Apps) (account : Bytes) : Bool :=
  if apps.aclType = .noAcl then true
  else
    match (if apps.aclType = .whiteListMode then apps.aclWhite
        else apps.aclBlack).find? account with
    | none => apps.aclType == .blackListMode
    | some access => if apps.aclType = .blackListMode then !access else access

/-! ## Histories -/

/-- The calls of an authorised sender. -/
inductive Operation
  | setDeployType (type : ℕ)
  | setDeployAuth (isClose : Bool) (account : Bytes)

/-- The table after some operations, the latest first. -/
def appsAfter : List Operation → Apps
  | [] => {}
  | .setDeployType type :: history => setDeployType (appsAfter history) type
  | .setDeployAuth isClose account :: history => setDeployAuth (appsAfter history) isClose account

/-- The last switch of an account made while one of the types was in force: the type, and
whether it closed the account. -/
def lastSwitch (types : List AuthType) (account : Bytes) :
    List Operation → Option (AuthType × Bool)
  | [] => none
  | .setDeployType _ :: history => lastSwitch types account history
  | .setDeployAuth isClose other :: history =>
    let type := (appsAfter history).aclType
    if account = other ∧ type ∈ types then some (type, isClose)
    else lastSwitch types account history

variable (account : Bytes) (history : List Operation)

theorem setDeployType_lists {apps : Apps} {type : ℕ} :
    (setDeployType apps type).aclWhite = apps.aclWhite ∧
      (setDeployType apps type).aclBlack = apps.aclBlack := by
  unfold setDeployType
  split <;> exact ⟨rfl, rfl⟩

/-- A list binds an account to `true` when its last switch that was written there says so. -/
theorem find?_lists : ((appsAfter history).aclWhite.find? account = some true ↔
      lastSwitch [.noAcl, .whiteListMode] account history = some (.whiteListMode, false)) ∧
    ((appsAfter history).aclBlack.find? account = some true ↔
      lastSwitch [.blackListMode] account history = some (.blackListMode, true)) ∧
    (lastSwitch [.noAcl, .whiteListMode] account history = some (.whiteListMode, false) →
      lastSwitch [.whiteListMode] account history = some (.whiteListMode, false)) := by
  induction history with
  | nil =>
    have hempty : (SortedMap.empty : SortedMap Bytes Bool).find? account = none := rfl
    simp [appsAfter, lastSwitch, hempty]
  | cons op history ih =>
    rcases op with type | ⟨isClose, other⟩
    · rwa [appsAfter, setDeployType_lists.1, setDeployType_lists.2]
    · simp only [appsAfter, lastSwitch, setDeployAuth]
      by_cases haccount : account = other
      · cases htype : (appsAfter history).aclType <;> cases isClose <;>
          simp_all [SortedMap.find?_insert]
      · cases htype : (appsAfter history).aclType <;> simp_all [SortedMap.find?_insert]

/-- Deploying is allowed as the last operation under the list in force said if and only if,
in white-list mode, an account that was opened last has not been switched since without a
list in force. -/
theorem checkDeployAuth_last_iff :
    let apps : Apps := appsAfter history
    ((apps.aclType = .noAcl → checkDeployAuth apps account = true) ∧
      (apps.aclType = .whiteListMode → (checkDeployAuth apps account = true ↔
        lastSwitch [.whiteListMode] account history = some (.whiteListMode, false))) ∧
      (apps.aclType = .blackListMode → (checkDeployAuth apps account = false ↔
        lastSwitch [.blackListMode] account history = some (.blackListMode, true)))) ↔
    (apps.aclType = .whiteListMode →
      lastSwitch [.whiteListMode] account history = some (.whiteListMode, false) →
        lastSwitch [.noAcl, .whiteListMode] account history = some (.whiteListMode, false)) := by
  intro apps
  obtain ⟨hwhite, hblack, hopened⟩ := find?_lists account history
  rw [← hwhite, ← hblack]
  simp only [checkDeployAuth, apps]
  cases (appsAfter history).aclType
  · simp
  · rcases hfound : (appsAfter history).aclWhite.find? account with - | - | - <;>
      simp_all
  · rcases hfound : (appsAfter history).aclBlack.find? account with - | - | - <;> simp [hfound]

/-- An account that is opened in white-list mode, and opened once more while the type is 0,
is refused when the white list is in force again. -/
theorem opened_twice_refused :
    let history : List Operation := [.setDeployType 1, .setDeployAuth false [97],
      .setDeployType 0, .setDeployAuth false [97], .setDeployType 1]
    lastSwitch [.whiteListMode] [97] history = some (.whiteListMode, false) ∧
      checkDeployAuth (appsAfter history) [97] = false := by
  decide

end FiscoSmart.Precompiled.DeployAuth
