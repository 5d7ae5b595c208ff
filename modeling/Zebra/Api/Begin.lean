import Zebra.Api.Select

/-!
# Transactions of a session

`zebra_begin_trans` and `zebra_end_transaction`, with the commit that a begin makes where the last
transaction did not finish.
-/

namespace Zebra.Api

/-- A session and the state files of the registers; a missing file is `('o', 0)`. -/
structure World where
  zh : ZebraHandle
  states : Str → Char × Int

/-- What files and libraries answer in a call. -/
structure Answers where
  /-- whether a lock file can be opened -/
  lockCreate : Str → Bool
  /-- whether `zebra_register_open` opens the register -/
  registerOpen : Bool
  /-- whether `bfs_create` succeeds -/
  bfsCreate : Bool
  commitExists : Bool
  /-- whether `bf_commitExec` succeeds -/
  commitExec : Bool

def zebraLockR : Option ZebraLockHandle → Except Stop (Option ZebraLockHandle)
  | none => .error .undefined
  | some h => if h.held.contains .write then .error .blocked else .ok (some ⟨.read :: h.held⟩)

def zebraLockW : Option ZebraLockHandle → Except Stop (Option ZebraLockHandle)
  | none => .error .undefined
  | some h => if h.held ≠ [] then .error .blocked else .ok (some ⟨[.write]⟩)

def zebraUnlock : Option ZebraLockHandle → Except Stop (Option ZebraLockHandle)
  | none => .error .undefined
  | some h => .ok (some ⟨h.held.tail⟩)

def lockNormal (lock : Option ZebraLockHandle → Except Stop (Option ZebraLockHandle))
    (zh : ZebraHandle) : Except Stop ZebraHandle :=
  (lock zh.lockNormal).map fun lockNormal => { zh with lockNormal }

def lockShadow (lock : Option ZebraLockHandle → Except Stop (Option ZebraLockHandle))
    (zh : ZebraHandle) : Except Stop ZebraHandle :=
  (lock zh.lockShadow).map fun lockShadow => { zh with lockShadow }

/-- `zebra_unlock` of both locks -/
def unlockBoth (zh : ZebraHandle) : Except Stop ZebraHandle :=
  (lockShadow zebraUnlock zh).bind (lockNormal zebraUnlock)

def lockForWriting (rval : Option Str) (zh : ZebraHandle) : Except Stop ZebraHandle :=
  (lockNormal (if rval.isSome then zebraLockR else zebraLockW) zh).bind (lockShadow zebraLockW)

def lockForReading (val : Char) (zh : ZebraHandle) : Except Stop ZebraHandle :=
  if val = 'c' then lockShadow zebraLockR zh else lockNormal zebraLockR zh

def zebraSetState (w : World) (val : Char) (seqno : Int) : World :=
  { w with states := Function.update w.states w.zh.regName (val, seqno) }

def zebraGetState (w : World) : Char × Int := w.states w.zh.regName

def cleans (cleanOnly : Bool) (val : Char) : Bool :=
  if val = 'd' then true else if val = 'c' then false else cleanOnly

/-- What `zebra_commit_ex` does between `bfs_create` and the end of its locks. -/
def commitState (answers : Answers) (cleanOnly : Bool) (w : World) : ZebraRes × World :=
  let (val, seqno) := zebraGetState w
  if answers.commitExists then
    if cleans cleanOnly val then
      (.ok, zebraSetState (zebraSetState w 'd' seqno) 'o' (seqno + 1))
    else if answers.commitExec then
      (.ok, zebraSetState (zebraSetState w 'c' seqno) 'o' (seqno + 1))
    else
      (.fail, zebraSetState w 'c' seqno)
  else
    (.ok, w)

/-- The lock under which `zebra_commit_ex` removes the shadow. -/
def cleanShadow (zh : ZebraHandle) : Except Stop ZebraHandle :=
  (lockShadow zebraLockW zh).bind (lockShadow zebraUnlock)

def zebraCommitEx (zs : Service) (answers : Answers) (cleanOnly : Bool) (w : World) :
    Except Stop (ZebraRes × World) := do
  let (_, zh) ← zebraSelectDefaultDatabase zs answers.lockCreate w.zh
  if ¬ zh.res then
    return (.fail, { w with zh := { zh with errCode := .databaseUnavailable } })
  if (zs.shadow zh.regName).isNone then
    return (.ok, { w with zh })
  let zh ← lockNormal zebraLockW zh
  let zh ← lockShadow zebraLockR zh
  if ¬ answers.bfsCreate then
    let zh ← unlockBoth zh
    return (.fail, { w with zh })
  let (res, w) := commitState answers cleanOnly { w with zh }
  let zh ← unlockBoth w.zh
  if res = .ok ∧ answers.commitExists then
    let zh ← cleanShadow zh
    return (res, { w with zh })
  return (res, { w with zh })

def zebraCommit (zs : Service) (answers : Answers) (w : World) : Except Stop (ZebraRes × World) :=
  zebraCommitEx zs answers false w

/-- `zebra_register_close` in a begin, which leaves the pointer. -/
def leaveRegister (zh : ZebraHandle) : Except Stop ZebraHandle :=
  match zh.reg with
  | .null => .ok zh
  | .closed => .error .undefined
  | .opened _ _ => .ok { zh with reg := .closed }

def zebraFlushReg (zh : ZebraHandle) : Except Stop ZebraRes :=
  match zh.reg with
  | .opened _ _ => .ok .ok
  | _ => .error .undefined

def uncount (zh : ZebraHandle) : ZebraHandle := { zh with transNo := zh.transNo - 1, transWNo := 0 }

/-- The end of a begin for writing: the state is set and the register is opened. -/
def openForWriting (answers : Answers) (w : World) (seqno : Int) : Except Stop (ZebraRes × World) :=
  let w := zebraSetState w 'd' seqno
  if answers.registerOpen then
    .ok (.ok, { w with zh := { w.zh with reg := .opened seqno none } })
  else
    (unlockBoth { w.zh with reg := .null }).map fun zh =>
      (.fail, { w with
        zh := zebraSetError (uncount zh) .temporarySystemError
          (some "zebra_begin_trans: cannot open register") })

/-- A begin for writing in a session without a transaction. -/
def beginFirstWrite (zs : Service) (answers : Answers) (w : World) :
    Except Stop (ZebraRes × World) := do
  let zh ← leaveRegister w.zh
  let zh := { zh with transWNo := zh.transNo }
  let rval := if zh.shadowEnable then zs.shadow zh.regName else none
  let zh ← lockForWriting rval zh
  let (val, seqno) := zebraGetState { w with zh }
  if val = 'o' then
    openForWriting answers { w with zh } seqno
  else
    let zh ← unlockBoth zh
    let (res, w) ← zebraCommit zs answers { w with zh }
    if res = .fail then
      return (.fail, { w with zh := uncount w.zh })
    else
      let zh ← lockForWriting rval w.zh
      openForWriting answers { w with zh } seqno

/-- `zebra_begin_trans` for writing -/
def beginWrite (zs : Service) (answers : Answers) (w : World) : Except Stop (ZebraRes × World) :=
  let zh := { w.zh with transNo := w.zh.transNo + 1 }
  if zh.transWNo ≠ 0 then
    .ok (.ok, { w with zh })
  else if zh.transNo ≠ 1 then
    .ok (.fail, { w with
      zh := zebraSetError zh .temporarySystemError
        (some "zebra_begin_trans: no write trans within read") })
  else
    beginFirstWrite zs answers { w with zh }

/-- Whether the register has to be opened again for reading. -/
def dirty (zh : ZebraHandle) (val : Char) (seqno : Int) : Except Stop Bool :=
  match zh.reg with
  | .null => .ok true
  | .closed => .error .undefined
  | .opened seqno' lastVal => .ok (seqno ≠ seqno' ∨ lastVal ≠ some val)

/-- A begin for reading in a session without a transaction. -/
def beginFirstRead (answers : Answers) (w : World) : Except Stop (ZebraRes × World) := do
  let (val, seqno) := zebraGetState w
  let val := if val = 'd' then 'o' else val
  if ← dirty w.zh val seqno then
    let zh ← lockForReading val w.zh
    let zh ← leaveRegister zh
    if answers.registerOpen then
      return (.ok, { w with zh := { zh with reg := .opened seqno (some val) } })
    else
      let zh ← unlockBoth { zh with reg := .null }
      return (.fail, { w with
        zh := { zh with transNo := zh.transNo - 1, errCode := .databaseUnavailable } })
  else
    return (.ok, w)

/-- `zebra_begin_trans` for reading -/
def beginRead (answers : Answers) (w : World) : Except Stop (ZebraRes × World) :=
  let zh := { w.zh with transNo := w.zh.transNo + 1 }
  if zh.transNo ≠ 1 then
    (zebraFlushReg zh).map fun res => (res, { w with zh })
  else if ¬ zh.res then
    .ok (.fail, { w with
      zh := { zh with transNo := zh.transNo - 1, errCode := .databaseUnavailable } })
  else if zh.lockNormal = none ∨ zh.lockShadow = none then
    .ok (.fail, { w with
      zh := { zh with transNo := zh.transNo - 1, errCode := .temporarySystemError } })
  else
    beginFirstRead answers { w with zh }

/-- Whether the permissions of the session keep it from writing. -/
def mayNotWrite (zh : ZebraHandle) : Bool := zh.userPerm.any fun perm => ¬ perm.contains 'w'

def zebraBeginTrans (zs : Service) (answers : Answers) (w : World) (rw : Bool) :
    Except Stop (ZebraRes × World) :=
  (zebraSelectDefaultDatabase zs answers.lockCreate w.zh).bind fun selected =>
    let zh := selected.2
    if ¬ zh.res then
      .ok (.fail, { w with
        zh := zebraSetError zh .temporarySystemError
          (some "zebra_begin_trans: no database selected") })
    else if rw ∧ mayNotWrite zh then
      .ok (.fail, { w with zh := zebraSetError zh .permissionDenied none })
    else if rw then
      beginWrite zs answers { w with zh }
    else
      beginRead answers { w with zh }

def endWrite (zs : Service) (w : World) : Except Stop (ZebraRes × World) := do
  let zh := uncount w.zh
  let _ ← zebraFlushReg zh
  let zh ← closeRegister zh
  let (_, seqno) := zebraGetState { w with zh }
  let seqno := if (zs.shadow zh.regName).isNone then seqno + 1 else seqno
  let w := zebraSetState { w with zh } 'o' seqno
  let zh ← unlockBoth w.zh
  return (.ok, { w with zh })

def zebraEndTransaction (zs : Service) (w : World) : Except Stop (ZebraRes × World) :=
  if ¬ w.zh.res ∨ w.zh.reg = .null then
    .ok (.fail, { w with
      zh := zebraSetError w.zh .temporarySystemError
        (some "zebra_end_trans: no open transaction") })
  else if w.zh.transNo ≠ w.zh.transWNo then
    let zh := { w.zh with transNo := w.zh.transNo - 1 }
    if zh.transNo ≠ 0 then
      .ok (.ok, { w with zh })
    else
      (unlockBoth zh).map fun zh => (.ok, { w with zh })
  else
    endWrite zs w

end Zebra.Api
