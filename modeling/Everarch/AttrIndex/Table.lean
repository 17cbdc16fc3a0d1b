import Everarch.Keys
import Mathlib.Data.List.Sort

/-!
# The tables of the attribute index and the statements on the attr table

The tables that `evr_setup_attr_index_db` creates and the statements on `attr`
that `evr_prepare_attr_index_db` prepares.

SQLite leaves the order of rows with equal `valid_from` open. A `RowOrder` is one
way to order a result by `order by valid_from desc`; every statement that reads
siblings takes one.
-/

namespace Everarch

/-! ## Tables -/

/-- `evr_type_str`, `evr_type_int` and `evr_type_claim_ref`. -/
inductive AttrType where
  | str
  | int
  | claimRef
deriving DecidableEq, Repr

/-- A row of `attr_def`. -/
structure AttrDef where
  key : String
  type : AttrType
deriving DecidableEq, Repr

/-- A row of `attr` with its rowid. -/
structure AttrRow where
  rowid : Nat
  seed : ClaimRef
  key : String
  valStr : Option String
  valInt : Option Int
  validFrom : Int
  validUntil : Option Int
  trunc : Bool
deriving DecidableEq, Repr

/-- The `attr` table. No statement deletes from it, so SQLite numbers its rows
from one on in the order of insertion. -/
structure AttrTable where
  rows : List AttrRow
  rowids : rows.map (·.rowid) = List.range' 1 rows.length

/-- A row of `claim`. -/
structure ClaimRow where
  ref : ClaimRef
  seed : ClaimRef
deriving DecidableEq, Repr

/-- A row of `claim_archive`. -/
structure ClaimArchiveRow where
  seed : ClaimRef
  validUntil : Int
deriving DecidableEq, Repr

/-- A row of `claim_set`. -/
structure ClaimSetRow where
  ref : BlobRef
  created : Int
  failCounter : Int
  lastFailTimestamp : Option Int
deriving DecidableEq, Repr

/-- `struct evr_attr_index_db`: the tables behind it. -/
structure AttrIndexDb where
  attrDef : List AttrDef
  attr : AttrTable
  claim : List ClaimRow
  claimArchive : List ClaimArchiveRow
  claimSet : List ClaimSetRow

/-- The empty `attr` table. -/
def AttrTable.empty : AttrTable :=
  ⟨[], rfl⟩

/-- The database after `evr_setup_attr_index_db` with the given attr-defs. -/
def setupAttrIndexDb (attrDef : List AttrDef) : AttrIndexDb :=
  ⟨attrDef, .empty, [], [], []⟩

/-! ## Statements -/

/-- The row with another `valid_until`. -/
def AttrRow.setValidUntil (r : AttrRow) (t : Int) : AttrRow :=
  { r with validUntil := some t }

/-- `update attr set valid_until = ? where rowid = ?`. -/
def AttrTable.updateValidUntil (table : AttrTable) (rowid : Int) (t : Int) : AttrTable where
  rows := table.rows.map fun r => if (r.rowid : Int) = rowid then r.setValidUntil t else r
  rowids := by
    rw [List.map_map, List.length_map, ← table.rowids]
    refine List.map_congr_left fun r _ => ?_
    show (if (r.rowid : Int) = rowid then r.setValidUntil t else r).rowid = r.rowid
    split <;> rfl

/-- `insert into attr (...) values (...)`. -/
def AttrTable.insert (table : AttrTable) (seed : ClaimRef) (key : String)
    (valStr : Option String) (valInt : Option Int) (validFrom : Int) (validUntil : Option Int)
    (trunc : Bool) : AttrTable where
  rows := table.rows ++
    [⟨table.rows.length + 1, seed, key, valStr, valInt, validFrom, validUntil, trunc⟩]
  rowids := by
    rw [List.map_append, table.rowids, List.length_append, List.length_singleton,
      List.range'_concat]
    simp [Nat.add_comm]

/-- The rows of a seed and key. -/
def AttrTable.siblings (table : AttrTable) (seed : ClaimRef) (key : String) : List AttrRow :=
  table.rows.filter fun r => r.seed = seed ∧ r.key = key

/-- A way to order rows by `order by valid_from desc`. -/
structure RowOrder where
  sort : List AttrRow → List AttrRow
  perm : ∀ rows, (sort rows).Perm rows
  sorted : ∀ rows, (sort rows).Pairwise fun a b => b.validFrom ≤ a.validFrom

/-- The order that keeps tied rows in the order of their rowids. -/
def RowOrder.byRowid : RowOrder where
  sort := List.insertionSort fun a b => b.validFrom ≤ a.validFrom
  perm := List.perm_insertionSort _
  sorted rows := by
    have : Std.Total fun a b : AttrRow => b.validFrom ≤ a.validFrom :=
      ⟨fun a b => Int.le_total b.validFrom a.validFrom⟩
    have : IsTrans AttrRow fun a b => b.validFrom ≤ a.validFrom :=
      ⟨fun _ _ _ h h' => Int.le_trans h' h⟩
    exact List.pairwise_insertionSort _ rows

/-- `find_past_attr_siblings`: `... where seed = ? and key = ? and valid_from <= ?
order by valid_from desc`. -/
def AttrTable.findPastSiblings (ord : RowOrder) (table : AttrTable) (seed : ClaimRef)
    (key : String) (t : Int) : List AttrRow :=
  ord.sort ((table.siblings seed key).filter fun r => r.validFrom ≤ t)

/-- `find_future_attr_siblings`: `... where seed = ? and key = ? and valid_from > ?
order by valid_from desc`. -/
def AttrTable.findFutureSiblings (ord : RowOrder) (table : AttrTable) (seed : ClaimRef)
    (key : String) (t : Int) : List AttrRow :=
  ord.sort ((table.siblings seed key).filter fun r => t < r.validFrom)

/-- `find_seed_attrs`: `select key, val_str from attr where seed = ?1 and
valid_from <= ?2 and (valid_until > ?2 or valid_until is null) and val_str not
null`, visited by `evr_get_seed_attrs`. -/
def getSeedAttrs (db : AttrIndexDb) (t : Int) (seed : ClaimRef) : List (String × String) :=
  db.attr.rows.filterMap fun r =>
    if r.seed = seed ∧ r.validFrom ≤ t ∧ (∀ u ∈ r.validUntil, t < u) then
      r.valStr.map (r.key, ·)
    else none

/-- `evr_get_attr_type_for_key`: keys without a definition are strings. -/
def getAttrTypeForKey (db : AttrIndexDb) (key : String) : AttrType :=
  match db.attrDef.find? (fun d => d.key = key) with
  | some d => d.type
  | none => .str

/-! ## Rowids -/

namespace AttrTable

theorem rowid_pos {table : AttrTable} {r : AttrRow} (h : r ∈ table.rows) :
    1 ≤ r.rowid ∧ r.rowid ≤ table.rows.length := by
  have hmem : r.rowid ∈ table.rows.map (·.rowid) := List.mem_map_of_mem h
  rw [table.rowids, List.mem_range'_1] at hmem
  omega

theorem rowid_inj {table : AttrTable} {r r' : AttrRow} (h : r ∈ table.rows)
    (h' : r' ∈ table.rows) (heq : r.rowid = r'.rowid) : r = r' := by
  have hnd : (table.rows.map (·.rowid)).Nodup := by
    rw [table.rowids]
    exact List.nodup_range'
  exact List.inj_on_of_nodup_map hnd h h' heq

/-- While the table is short enough, the conversion of a rowid to `int` loses
nothing. -/
theorem toInt32_rowid {table : AttrTable} {r : AttrRow} (h : r ∈ table.rows)
    (hlen : table.rows.length < 2 ^ 31) : toInt32 r.rowid = r.rowid :=
  toInt32_of_lt (Nat.lt_of_le_of_lt (rowid_pos h).2 hlen)

theorem mem_siblings {table : AttrTable} {seed : ClaimRef} {key : String} {r : AttrRow} :
    r ∈ table.siblings seed key ↔ r ∈ table.rows ∧ r.seed = seed ∧ r.key = key := by
  simp [siblings]

theorem mem_findPastSiblings {ord : RowOrder} {table : AttrTable} {seed : ClaimRef}
    {key : String} {t : Int} {r : AttrRow} :
    r ∈ table.findPastSiblings ord seed key t ↔
      r ∈ table.siblings seed key ∧ r.validFrom ≤ t := by
  simp [findPastSiblings, (ord.perm _).mem_iff]

theorem mem_findFutureSiblings {ord : RowOrder} {table : AttrTable} {seed : ClaimRef}
    {key : String} {t : Int} {r : AttrRow} :
    r ∈ table.findFutureSiblings ord seed key t ↔
      r ∈ table.siblings seed key ∧ t < r.validFrom := by
  simp [findFutureSiblings, (ord.perm _).mem_iff]

end AttrTable

end Everarch
