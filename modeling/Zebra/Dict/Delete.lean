import Zebra.Dict.Pages
import Zebra.Lib.BinarySearch

/-!
# Deletion from a dictionary

`dict_del_string` goes down the pages along a string; with `sub_flag` it deletes all keys that the
string is a prefix of, and `dict_del_subtree` then all that is below a page.
-/

namespace Zebra.Dict

variable {α ι : Type}

/-- The loop of `dict_del_subtree` at an entry. -/
def delEntry (below : DictStruct α ι → Nat → Option (DictStruct α ι)) (dict : DictStruct α ι) :
    Entry α ι → Option (DictStruct α ι)
  | .tail _ info => some (dict.call [info])
  | .sub subptr _ info =>
    let dict := if info ≠ [] then dict.call [info] else dict
    if subptr ≠ 0 then below dict subptr else some dict

/-- `dict_del_subtree`; the entries of a page stay as they are while the pages below it are
deleted. -/
def dictDelSubtree : Nat → DictStruct α ι → Nat → Option (DictStruct α ι)
  | 0, _, _ => none
  | fuel + 1, dict, ptr =>
    if ptr = 0 then some dict
    else ((dict.page ptr).entries.foldlM (delEntry (dictDelSubtree fuel)) dict).map
      fun dict => dict.free ptr

variable [LinearOrder α]

/-- Whether the search stops at an entry; at a sub page it compares a character. -/
def hits (subFlag : Bool) (str : List α) : Entry α ι → Bool
  | .tail info _ => if subFlag then str <+: info else info = str
  | .sub _ dc _ => str.head? = some dc

/-- Whether the search goes on above an entry; `DICT_EOS` is less than every character. -/
def less (str : List α) : Entry α ι → Bool
  | .tail info _ => info < str
  | .sub _ dc _ => str.head?.elim false (dc < ·)

/-- What the loop of `dict_del_string` leaves. -/
structure Looked (α ι : Type) where
  page : Page α ι
  calls : List (List ι)
  r : Nat
  /-- The entry with a sub page that has been hit: where it is and what it has. -/
  found : Option (Nat × Nat × α × List ι)

/-- The loop of `dict_del_string`; with `sub_flag` it starts again when it has deleted a string. -/
def look (subFlag : Bool) (str : List α) : Nat → Page α ι → Looked α ι
  | 0, page => { page, calls := [], r := 0, found := none }
  | fuel + 1, page =>
    let nodir := page.entries.length
    match BinarySearch.search (hits subFlag str) (less str) page.entries nodir 0 nodir with
    | none => { page, calls := [], r := 0, found := none }
    | some mid =>
      match page.entries[mid]? with
      | none => { page, calls := [], r := 0, found := none }
      | some (.tail _ info) =>
        let page := { page with type := 1, entries := page.entries.eraseIdx mid }
        if subFlag then
          let rest := look subFlag str fuel page
          { rest with calls := info :: rest.calls, r := 1 }
        else { page, calls := [], r := 1, found := none }
      | some (.sub subptr dc info) =>
        { page, calls := [], r := 0, found := some (mid, subptr, dc, info) }

/-- The end of `dict_del_string` but for the sub page: an empty page is removed. -/
def removeEmpty (dict : DictStruct α ι) (ptr r : Nat) : DictStruct α ι × Nat :=
  if (dict.page ptr).entries = [] ∧ ptr ≠ dict.root then (dict.free ptr, 2) else (dict, r)

/-- An entry is taken out of the directory of a page. -/
def removeEntry (dict : DictStruct α ι) (ptr mid : Nat) : DictStruct α ι :=
  let page := dict.page ptr
  dict.setPage ptr { page with type := 1, entries := page.entries.eraseIdx mid }

/-- The info of an entry with a sub page is wiped out; the client function gets it afterwards, when
its length is 0. -/
def wipeInfo (subFlag : Bool) (dict : DictStruct α ι) (ptr mid subptr : Nat) (dc : α)
    (info : List ι) : DictStruct α ι :=
  if info ≠ [] then
    let page := dict.page ptr
    (dict.setPage ptr
      { page with type := 1, entries := page.entries.set mid (.sub subptr dc []) }).call
        (if subFlag then [[]] else [])
  else dict

/-- In `dict_del_string`, where the string ends at an entry with a sub page. -/
def endString (subFlag : Bool) (fuel : Nat) (dict : DictStruct α ι) (ptr r : Nat)
    (mid subptr : Nat) (dc : α) (info : List ι) : Option (DictStruct α ι × Nat) :=
  let dict := wipeInfo subFlag dict ptr mid subptr dc info
  let r := if info ≠ [] then 1 else r
  let dict := if subFlag then removeEntry dict ptr mid else dict
  let (dict, r) := removeEmpty dict ptr r
  if subptr ≠ 0 ∧ subFlag then (dictDelSubtree fuel dict subptr).map fun dict => (dict, r)
  else some (dict, r)

/-- In `dict_del_string`, after the sub page; 2 says that it has been removed. -/
def afterSub (dict : DictStruct α ι) (ptr mid r : Nat) (dc : α) (info : List ι) :
    DictStruct α ι × Nat :=
  let page := dict.page ptr
  let entries :=
    if info ≠ [] then page.entries.set mid (.sub 0 dc info) else page.entries.eraseIdx mid
  if r = 2 then removeEmpty (dict.setPage ptr { page with entries }) ptr 1
  else removeEmpty dict ptr r

/-- `dict_del_string` on a page, with `below` for the sub page. -/
def dictDelPage (subFlag : Bool) (fuel : Nat)
    (below : DictStruct α ι → Nat → Option (DictStruct α ι × Nat)) (str : List α)
    (dict : DictStruct α ι) (ptr : Nat) : Option (DictStruct α ι × Nat) :=
  if ptr = 0 then some (dict, 0)
  else
    let page := dict.page ptr
    let looked := look subFlag str (page.entries.length + 1) page
    let dict := (dict.setPage ptr looked.page).call looked.calls
    match looked.found with
    | none => some (removeEmpty dict ptr looked.r)
    | some (mid, subptr, dc, info) =>
      if str.tail = [] then endString subFlag fuel dict ptr looked.r mid subptr dc info
      else (below dict subptr).map fun (dict, r) => afterSub dict ptr mid r dc info

def dictDelString (subFlag : Bool) (fuel : Nat) :
    List α → DictStruct α ι → Nat → Option (DictStruct α ι × Nat)
  | [] => dictDelPage subFlag fuel (fun dict _ => some (dict, 0)) []
  | c :: str => dictDelPage subFlag fuel (dictDelString subFlag fuel str) (c :: str)

/-- `dict_delete_subtree` with a client function. -/
def dictDeleteSubtree (fuel : Nat) (dict : DictStruct α ι) (p : List α) :
    Option (DictStruct α ι × Nat) :=
  dictDelString true fuel p dict dict.root

end Zebra.Dict
