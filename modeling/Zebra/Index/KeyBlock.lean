import Zebra.Keys.ItKey
import Zebra.Lib.Comparator

/-!
# Collecting keys and writing them to temporary files

`key_block.c`: keys are put into a buffer until it is nearly full; then they are sorted and written
to the next temporary file.  With threads a second buffer is filled while another thread sorts and
writes the first one.
-/

namespace Zebra.TempFile

/-- What lies in the buffer for one key: the 0-terminated name, the byte for insert or delete and
the key. -/
structure Entry where
  /-- Name, without the zero. -/
  name : List Byte
  /-- Whether the key is inserted. -/
  insert : Bool
  key : ItKey
  deriving DecidableEq

def itMaxWord : Nat := 512

/-- The loop of `key_SU_encode`; an `int` takes at most six rounds. -/
def keySUEncodeFrom : Nat → Nat → List Byte
  | 0, _ => []
  | fuel + 1, ch =>
    if ch = 0 then []
    else (if 64 ≤ ch then 65 + ch % 64 else 1 + ch) :: keySUEncodeFrom fuel (ch / 64)

/-- `key_SU_encode` of a number that is not negative. -/
def keySUEncode (ch : Nat) : List Byte := keySUEncodeFrom 6 ch

/-- The arguments of `key_block_write`. -/
structure Call where
  sysno : Nat
  keyIn : ItKey
  cmd : Bool
  /-- `str_buf[0..str_len)` -/
  str : List Byte
  staticrank : Nat

def keyOut (staticRankEnable : Bool) (call : Call) : ItKey :=
  (if staticRankEnable then [call.staticrank] else []) ++
    (if call.keyIn.getD 1 0 ≠ 0 then call.keyIn.getD 1 0 else call.sysno) :: call.keyIn.drop 2

/-- The entry that `key_block_write` puts into the buffer. -/
def Call.entry (staticRankEnable : Bool) (call : Call) : Entry where
  name := keySUEncode (call.keyIn.headD 0) ++ call.str
  insert := call.cmd
  key := keyOut staticRankEnable call

/-- `sizeof(struct it_key)` -/
def sizeofItKey : Nat := 48

/-- `sizeof(char*)` -/
def sizeofPtr : Nat := 8

def Entry.size (entry : Entry) : Nat := entry.name.length + 2 + sizeofItKey

def strcmp : List Byte → List Byte → Int
  | [], [] => 0
  | [], _ :: _ => -1
  | _ :: _, [] => 1
  | a :: as, b :: bs => if a = b then strcmp as bs else if a < b then -1 else 1

def keyQsortCompare (e1 e2 : Entry) : Int :=
  if strcmp e1.name e2.name ≠ 0 then strcmp e1.name e2.name
  else if keyCompare e1.key e2.key ≠ 0 then keyCompare e1.key e2.key
  else (e1.insert.toNat : Int) - e2.insert.toNat

/-- `encode_key_write`: the state of the coder and the bytes written; `k` is the name, or empty when
it is that of the entry before. -/
def encodeKeyWrite (k : List Byte) (i : CodeInfo) (entry : Entry) : CodeInfo × List Byte :=
  let (i, buf) := iscz1Encode i entry.key
  (i, k ++ 0 :: (entry.insert.toNat * 128 + buf.length) % 256 :: buf)

/-- The loop of `key_block_flush_int` over the entries behind `prevcp`. -/
def writeRest (prevcp : List Byte) : CodeInfo → List Entry → List Byte
  | _, [] => []
  | i, entry :: entries =>
    if strcmp entry.name prevcp ≠ 0 then
      let (i, out) := encodeKeyWrite entry.name iscz1Reset entry
      out ++ writeRest entry.name i entries
    else
      let (i, out) := encodeKeyWrite [] i entry
      out ++ writeRest prevcp i entries

def writeFile : List Entry → List Byte
  | [] => []
  | entry :: entries =>
    let (i, out) := encodeKeyWrite entry.name iscz1Reset entry
    out ++ writeRest entry.name i entries

/-- `key_block_flush_int`: one more file, unless there are no entries. -/
def flushInt (files : List (List Byte)) (entries : List Entry) : List (List Byte) :=
  if entries = [] then files else files ++ [writeFile (qsort keyQsortCompare entries)]

/-- `struct zebra_key_block`, as far as one thread uses it. -/
structure Buffer where
  ptrTop : Nat
  /-- Entries, last one first, as the pointers to them lie; there are `ptr_i` of them. -/
  entries : List Entry
  keyBufUsed : Nat

/-- `key_block_create`: with threads the memory is for two buffers. -/
def create (mem : Nat) (useThreads : Bool) : Buffer where
  ptrTop := (if useThreads then mem / 2 else mem) / sizeofPtr
  entries := []
  keyBufUsed := 0

/-- Whether `key_block_write` flushes first; of a buffer that has come about `ptr_i` is at most
`ptr_top`. -/
def Buffer.nearlyFull (p : Buffer) : Bool :=
  (p.ptrTop - p.entries.length) * sizeofPtr < p.keyBufUsed + 1024

/-- `ptr_i = 0` and `key_buf_used = 0`. -/
def Buffer.clear (p : Buffer) : Buffer := { p with entries := [], keyBufUsed := 0 }

/-- The rest of `key_block_write`: the entry goes behind the others, and the pointer to it in front
of those to them, which end where the memory does.  There is none when the two meet, or when there
is no memory at all. -/
def Buffer.push (p : Buffer) (entry : Entry) : Option Buffer :=
  if p.keyBufUsed + entry.size + (p.entries.length + 1) * sizeofPtr ≤ p.ptrTop * sizeofPtr then
    some { p with entries := entry :: p.entries, keyBufUsed := p.keyBufUsed + entry.size }
  else none

/-- `struct zebra_key_block` and the files written, without threads. -/
structure KeyBlock where
  buffer : Buffer
  /-- `key1.tmp`, `key2.tmp`, ... -/
  files : List (List Byte)

def KeyBlock.flush (p : KeyBlock) : KeyBlock where
  buffer := p.buffer.clear
  files := flushInt p.files p.buffer.entries

def KeyBlock.write (staticRankEnable : Bool) (p : KeyBlock) (call : Call) : Option KeyBlock :=
  let p := if p.buffer.nearlyFull then p.flush else p
  (p.buffer.push (call.entry staticRankEnable)).map fun buffer => { p with buffer }

def KeyBlock.run (staticRankEnable : Bool) (p : KeyBlock) (calls : List Call) : Option KeyBlock :=
  (calls.foldlM (KeyBlock.write staticRankEnable) p).map KeyBlock.flush

/-- Where the thread is that writes keys. -/
inductive MainAt where
  /-- In front of the next call, or of the final flush. -/
  | next
  /-- In `key_block_write`, behind the test on the buffer. -/
  | write
  /-- In the final flush, waiting for the other thread. -/
  | wait
  /-- The final flush has returned. -/
  | done
  deriving DecidableEq

inductive SorterAt where
  /-- Waiting for work. -/
  | idle
  /-- `key_block_flush_int` has returned. -/
  | written
  deriving DecidableEq

/-- `struct zebra_key_block` with threads, and where the two threads are. -/
structure Threads where
  /-- Calls still to be made. -/
  calls : List Call
  mainAt : MainAt
  buffer : Buffer
  isSorting : Bool
  /-- `thread_key_buf` with `thread_ptr_i` entries. -/
  threadEntries : List Entry
  sorterAt : SorterAt
  files : List (List Byte)

/-- What the two threads may do next.  Between two steps of a thread the other one may take any
number of them; the waits for a condition are the premises about `isSorting`. -/
inductive Threads.Step (staticRankEnable : Bool) : Threads → Threads → Prop
  /-- The buffer has room: `key_block_write` goes on. -/
  | room {p : Threads} {call : Call} {calls : List Call} (at_next : p.mainAt = .next)
      (more : p.calls = call :: calls) (fits : p.buffer.nearlyFull = false) :
      Step staticRankEnable p { p with mainAt := .write }
  /-- `key_block_flush` hands the buffer to the sorting thread, once that has finished. -/
  | handOver {p : Threads} {call : Call} {calls : List Call} (at_next : p.mainAt = .next)
      (more : p.calls = call :: calls) (full : p.buffer.nearlyFull = true)
      (free : p.isSorting = false) :
      Step staticRankEnable p
        { p with mainAt := .write, buffer := p.buffer.clear, isSorting := true
                 threadEntries := p.buffer.entries }
  /-- The rest of `key_block_write`. -/
  | write {p : Threads} {call : Call} {calls : List Call} {buffer : Buffer}
      (at_write : p.mainAt = .write) (more : p.calls = call :: calls)
      (pushed : p.buffer.push (call.entry staticRankEnable) = some buffer) :
      Step staticRankEnable p { p with mainAt := .next, calls, buffer }
  | finish {p : Threads} (at_next : p.mainAt = .next) (none_left : p.calls = [])
      (free : p.isSorting = false) :
      Step staticRankEnable p
        { p with mainAt := .wait, buffer := p.buffer.clear, isSorting := true
                 threadEntries := p.buffer.entries }
  /-- The final flush returns when the other thread has finished. -/
  | finished {p : Threads} (at_wait : p.mainAt = .wait) (free : p.isSorting = false) :
      Step staticRankEnable p { p with mainAt := .done }
  /-- The sorting thread has been woken: it sorts and writes. -/
  | sort {p : Threads} (at_idle : p.sorterAt = .idle) (work : p.isSorting = true) :
      Step staticRankEnable p
        { p with sorterAt := .written, files := flushInt p.files p.threadEntries }
  | sorted {p : Threads} (at_written : p.sorterAt = .written) :
      Step staticRankEnable p { p with sorterAt := .idle, isSorting := false }

def Threads.start (mem : Nat) (calls : List Call) : Threads where
  calls
  mainAt := .next
  buffer := create mem true
  isSorting := false
  threadEntries := []
  sorterAt := .idle
  files := []

end Zebra.TempFile
