import Zebra.Index.KeyBlock

/-!
# Reading temporary files

`key_file_chunk_read`, `key_file_getc` and `key_file_read` of `kinput.c`: a file is read through a
buffer of `chunk` bytes that is filled again wherever it ends.
-/

namespace Zebra.TempFile

def inpNameMax : Nat := 768

/-- `struct key_file` with the contents of its file. -/
structure KeyFile where
  file : List Byte
  /-- File offset. -/
  offset : Nat
  /-- The `buf_size` bytes read. -/
  buf : List Byte
  /-- Bytes allocated. -/
  chunk : Nat
  /-- Current position in the buffer. -/
  bufPtr : Nat
  /-- Last name read. -/
  prevName : List Byte
  decodeHandle : CodeInfo

namespace KeyFile

def chunkRead (f : KeyFile) : KeyFile :=
  { f with bufPtr := 0, buf := (f.file.drop f.offset).take f.chunk }

def init (chunk : Nat) (file : List Byte) : KeyFile :=
  chunkRead
    { file, offset := 0, buf := [], chunk, bufPtr := 0, prevName := [], decodeHandle := iscz1Reset }

/-- `key_file_getc`; `none` is `EOF`. -/
def getc (f : KeyFile) : Option Byte × KeyFile :=
  match f.buf[f.bufPtr]? with
  | some c => (some c, { f with bufPtr := f.bufPtr + 1 })
  | none =>
    if f.buf.length < f.chunk then (none, f)
    else
      let f := chunkRead { f with offset := f.offset + f.buf.length }
      match f.buf[f.bufPtr]? with
      | some c => (some c, { f with bufPtr := f.bufPtr + 1 })
      | none => (none, f)

/-- `while ((c = key_file_getc(f)))`: the name, of which `key` has been read.  At the end of the
file the loop would go on forever. -/
def readName : Nat → KeyFile → List Byte → Option (List Byte × KeyFile)
  | 0, _, _ => none
  | fuel + 1, f, key =>
    match f.getc with
    | (none, _) => none
    | (some c, f) =>
      if c = 0 then some (key, f)
      else readName fuel f (if key.length < inpNameMax - 2 then key ++ [c] else key)

/-- `for (j = 0; j < c; j++) srcbuf[j] = key_file_getc(f)`; `EOF` becomes the byte 255. -/
def readBytes : Nat → KeyFile → List Byte × KeyFile
  | 0, f => ([], f)
  | count + 1, f =>
    let (c, f) := f.getc
    let (src, f) := readBytes count f
    (c.getD 255 :: src, f)

/-- `key_file_read`: the next entry, or none at the end of the file. -/
def read (f : KeyFile) : Option (Option Entry × KeyFile) :=
  match f.getc with
  | (none, f) => some (none, f)
  | (some c, f) => do
      let (name, f) ←
        if c = 0 then some (f.prevName, f)
        else do
          let (name, f) ← readName (f.file.length + 1) f [c]
          some (name, { f with prevName := name, decodeHandle := iscz1Reset })
      let (c, f) := f.getc
      let c := c.getD 255
      let (src, f) := readBytes (c % 128) f
      let (key, mem, _) ← iscz1Decode f.decodeHandle src
      some (some { name, insert := 128 ≤ c, key }, { f with decodeHandle := mem })

/-- `while (key_file_read(f, key))`, at most `fuel` times. -/
def readAll : Nat → KeyFile → Option (List Entry)
  | 0, _ => none
  | fuel + 1, f => do
      let (entry, f) ← f.read
      match entry with
      | none => some []
      | some entry => do
          let entries ← readAll fuel f
          some (entry :: entries)

end KeyFile

end Zebra.TempFile
