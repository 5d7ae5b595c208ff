import Zebra.Api.Session

/-!
# Selecting databases

`zebra_select_databases` checks the names, keeps them, compares their registers and only then goes
over to the register.
-/

namespace Zebra.Api

variable {zs : Service} {lockCreate : Str → Bool} {zh zh' : ZebraHandle} {basenames : List Str}

/-- `strchr (s, c)`: what follows the first `c`, and how many characters come before it -/
def strchrAfter (c : Char) : Str → Option (Nat × Str)
  | [] => none
  | a :: s => if a = c then some (0, s) else (strchrAfter c s).map fun found =>
      (found.1 + 1, found.2)

theorem strchrAfter_none {c : Char} {s : Str} : strchrAfter c s = none ↔ c ∉ s := by
  induction s with
  | nil => simp [strchrAfter]
  | cons a s ih =>
    rw [strchrAfter, List.mem_cons]
    split
    · simp_all
    · rw [Option.map_eq_none_iff, ih]
      simp_all [eq_comm]

theorem strchrAfter_some {c : Char} {s rest : Str} {len : Nat}
    (found : strchrAfter c s = some (len, rest)) :
      s = s.take len ++ c :: rest ∧ c ∉ s.take len := by
  induction s generalizing len with
  | nil => simp [strchrAfter] at found
  | cons a s ih =>
    rw [strchrAfter] at found
    split at found
    · rename_i same
      cases found
      simp [same]
    · rename_i other
      rw [Option.map_eq_some_iff] at found
      obtain ⟨⟨before, after⟩, found, same⟩ := found
      cases same
      obtain ⟨parts, free⟩ := ih found
      rw [List.take_succ_cons, List.cons_append, ← parts, List.mem_cons]
      exact ⟨rfl, fun mem => mem.elim (fun same => other same.symm) free⟩

theorem strchrAfter_length {c : Char} {s rest : Str} {len : Nat}
    (found : strchrAfter c s = some (len, rest)) : rest.length < s.length := by
  rw [(strchrAfter_some found).1, List.length_append, List.length_cons]
  omega

/-- The loop `for (p = zh->dbaccesslist; p && *p; p = pp)`: the `p` it ends with. -/
def scanAccessList (db : Str) (p : Str) : Option Str :=
  if p = [] then
    some p
  else
    match _found : strchrAfter '+' p with
    | none => if p = db then some p else none
    | some (len, pp) => if len = db.length ∧ db = p.take len then some p else scanAccessList db pp
  termination_by p.length
  decreasing_by exact strchrAfter_length _found

/-- Whether the names are not all accessible by the list. -/
def accessDenied (dbaccesslist : Option Str) (basenames : List Str) : Bool :=
  match dbaccesslist with
  | none => false
  | some list => basenames.any fun db => (scanAccessList db list).isNone

/-- `strrchr (s, c) - s` -/
def strrchr (c : Char) : Str → Option Nat
  | [] => none
  | a :: s =>
    match strrchr c s with
    | some n => some (n + 1)
    | none => if a = c then some 0 else none

def regPart (name : Str) : Option Str := (strrchr '/' name).map fun len => name.take len

/-- The `new_reg` of a name. -/
def regOf (name : Str) : Str := (regPart name).getD []

/-- The comparison of another name with the first: `cp` is the last slash in the first, `newReg`
what is in front of it. -/
def sameReg (cp : Option Nat) (newReg : Str) (name : Str) : Bool :=
  match cp, strrchr '/' name with
  | some len, some len' => len = len' ∧ name.take len = newReg
  | some _, none => false
  | none, some _ => false
  | none, none => true

def zebraOpenRes (zh : ZebraHandle) : ZebraHandle :=
  { zh with errCode := .none, res := zh.pathReg.isSome ∨ zh.regName = [] }

def zebraCloseRes (zh : ZebraHandle) : ZebraHandle := { zh with errCode := .none, res := false }

/-- The locks of a register; `lockCreate` says which lock files can be opened. -/
def createLocks (lockCreate : Str → Bool) (zh : ZebraHandle) : ZebraHandle :=
  if zh.res then
    if lockCreate ("norm.".toList ++ zh.regName ++ ".LCK".toList) ∧
        lockCreate ("shadow.".toList ++ zh.regName ++ ".LCK".toList) then
      { zh with lockNormal := some ⟨[]⟩, lockShadow := some ⟨[]⟩ }
    else
      zebraCloseRes zh
  else
    zh

/-- `zebra_select_register` from `xfree (zh->reg_name)` on -/
def openRegister (zs : Service) (lockCreate : Str → Bool) (zh : ZebraHandle) (newReg : Str) :
    ZebraHandle :=
  let pathReg := zs.pathRoot.map fun root => if newReg = [] then root else root ++ '/' :: newReg
  let zh := zebraOpenRes { zh with regName := newReg, pathReg }
  createLocks lockCreate { zh with lockNormal := none, lockShadow := none }

def zebraSelectRegister (zs : Service) (lockCreate : Str → Bool) (zh : ZebraHandle) (newReg : Str) :
    Except Stop ZebraHandle :=
  let zh := { zh with errCode := .none }
  if zh.res ∧ zh.regName = newReg then
    .ok zh
  else if zh.res then
    (closeRegister zh).map fun zh => openRegister zs lockCreate (zebraCloseRes zh) newReg
  else if zh.reg = .null ∧ zh.regName = [] then
    .ok (openRegister zs lockCreate zh newReg)
  else
    .error .assertion

/-- What `zebra_select_databases` looks at when the register has been selected. -/
def checkSelected (zh : ZebraHandle) : ZebraRes × ZebraHandle :=
  if ¬ zh.res then
    (.fail, { zh with errCode := .databaseUnavailable })
  else if zh.lockNormal = none ∨ zh.lockShadow = none then
    (.fail, { zh with errCode := .temporarySystemError })
  else
    (.ok, zh)

def zebraSelectDatabases (zs : Service) (lockCreate : Str → Bool) (zh : ZebraHandle)
    (basenames : List Str) : Except Stop (ZebraRes × ZebraHandle) :=
  let zh := { zh with errCode := .none }
  match basenames with
  | [] => .ok (.fail, { zh with errCode := .combiOfSpecifiedDatabasesUnsupp })
  | first :: others =>
    if accessDenied zh.dbaccesslist basenames then
      .ok (.fail, { zh with errCode := .accessToSpecifiedDatabaseDenied })
    else
      let zh := { zh with basenames }
      if others.all (sameReg (strrchr '/' first) (regOf first)) then
        (zebraSelectRegister zs lockCreate zh (regOf first)).map checkSelected
      else
        .ok (.fail, { zh with errCode := .combiOfSpecifiedDatabasesUnsupp })

def zebraSelectDatabase (zs : Service) (lockCreate : Str → Bool) (zh : ZebraHandle)
    (basename : Str) : Except Stop (ZebraRes × ZebraHandle) :=
  zebraSelectDatabases zs lockCreate zh [basename]

def zebraSelectDefaultDatabase (zs : Service) (lockCreate : Str → Bool) (zh : ZebraHandle) :
    Except Stop (ZebraRes × ZebraHandle) :=
  if zh.res then .ok (.ok, zh) else zebraSelectDatabase zs lockCreate zh zs.defaultDatabase

end Zebra.Api
