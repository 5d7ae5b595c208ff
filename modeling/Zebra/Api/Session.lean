import Mathlib.Data.List.Basic

/-!
# Sessions of the API

`zebraapi.c`: what a session (`ZebraHandle`) knows of the databases it has selected, of its register
and locks and of its transaction.
-/

namespace Zebra.Api

abbrev Str := List Char

/-- The error codes that the calls set. -/
inductive ErrCode where
  /-- 0 -/
  | none
  | temporarySystemError
  | combiOfSpecifiedDatabasesUnsupp
  | accessToSpecifiedDatabaseDenied
  | databaseUnavailable
  /-- `YAZ_BIB1_ES_PERMISSION_DENIED_ON_ES_CANNOT_MODIFY_OR_DELETE` -/
  | permissionDenied
  deriving DecidableEq

inductive ZebraRes where
  | ok
  | fail
  deriving DecidableEq

/-- Why a call does not return. -/
inductive Stop where
  /-- an assertion fails -/
  | assertion
  /-- a register that is closed, or a null pointer, is used -/
  | undefined
  /-- the session waits for a lock that it has itself -/
  | blocked
  deriving DecidableEq

theorem map_eq_ok {α β : Type} {f : α → β} {x : Except Stop α} {b : β} :
    x.map f = .ok b ↔ ∃ a, x = .ok a ∧ f a = b := by
  cases x with
  | error stop => simp [Except.map]
  | ok a => simp [Except.map]

inductive LockMode where
  | read
  | write
  deriving DecidableEq

/-- `ZebraLockHandle`, by what the session has of the lock, the last first -/
structure ZebraLockHandle where
  held : List LockMode
  deriving DecidableEq

/-- The pointer `zh->reg` -/
inductive RegPtr where
  | null
  /-- to a register that has been closed -/
  | closed
  /-- to an open register; `lastVal` is none for 0 -/
  | opened (seqno : Int) (lastVal : Option Char)
  deriving DecidableEq

/-- `struct zebra_service`: resources do not change while the service is on. -/
structure Service where
  pathRoot : Option Str
  /-- what `res_get` finds in `global_res` -/
  globalRes : Str → Option Str
  /-- what `res_get` finds in the file of access lists -/
  dbaccess : Str → Option Str
  /-- whether there are passwords, and which of them are right -/
  passwdDb : Option (Option Str → Option Str → Bool)
  /-- the resource `database`, or `Default` -/
  defaultDatabase : Str
  /-- the resource `shadow` of each register -/
  shadow : Str → Option Str

def Service.bare : Service where
  pathRoot := none
  globalRes := fun _ => none
  dbaccess := fun _ => none
  passwdDb := none
  defaultDatabase := "Default".toList
  shadow := fun _ => none

/-- `struct zebra_session` -/
structure ZebraHandle where
  /-- whether the resources of the register are open -/
  res : Bool
  reg : RegPtr
  userPerm : Option Str
  dbaccesslist : Option Str
  regName : Str
  pathReg : Option Str
  basenames : List Str
  transNo : Int
  transWNo : Int
  lockNormal : Option ZebraLockHandle
  lockShadow : Option ZebraLockHandle
  shadowEnable : Bool
  errCode : ErrCode
  errString : Option String

def zebraOpen : ZebraHandle where
  res := false
  reg := .null
  userPerm := none
  dbaccesslist := none
  regName := []
  pathReg := none
  basenames := []
  transNo := 0
  transWNo := 0
  lockNormal := none
  lockShadow := none
  shadowEnable := true
  errCode := .none
  errString := none

def zebraSetError (zh : ZebraHandle) (code : ErrCode) (addinfo : Option String) : ZebraHandle :=
  { zh with errCode := code, errString := addinfo }

/-- `resultSetInvalidate`, `zebra_register_close` and `zh->reg = 0`, where there is a register -/
def closeRegister (zh : ZebraHandle) : Except Stop ZebraHandle :=
  match zh.reg with
  | .null => .ok zh
  | .closed => .error .undefined
  | .opened _ _ => .ok { zh with reg := .null }

end Zebra.Api
