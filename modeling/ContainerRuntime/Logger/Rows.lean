import Mathlib.Data.List.DropRight
import ContainerRuntime.Logger.Filter
import ContainerRuntime.Logger.Catalog
import ContainerRuntime.Logic.Lists

/-! What `logs` prints for a list of records, row by row, and the array behind the
catalog that the rows are printed from.

The rows are a tail of the matching records, each with the catalog of all
records up to it. The catalog is an array that grows; what it says of one
container comes from the records of this container alone.
-/

set_option autoImplicit false

namespace ContainerRuntime.Logger

open CString

/-! ## The tail that is printed -/

/-- The catalog of a row is that of all records up to it, matching or not. -/
theorem rowsFrom_eq (catalog : LogCatalog) (records : List LogRecord) :
    rowsFrom catalog records =
      records.zipIdx.map fun found => (found.1, (records.take (found.2 + 1)).foldl catalogUpdate catalog) := by
  induction records generalizing catalog with
  | nil => rfl
  | cons record rest ih =>
    rw [List.zipIdx_cons', List.map_cons, List.map_map, rowsFrom, ih]
    rfl

/-- The matching records, each with its place in the file. -/
def matching (records : List LogRecord) : List (LogRecord × Nat) := records.zipIdx.filter (·.1.matchesFilter)

/-- The rows that are asked for: the last of the matching records, all of them where the number is not positive. -/
def tailRows (tailLines : Int) (records : List LogRecord) : List Row :=
  let count := if 0 < tailLines then min tailLines.toNat (matching records).length else (matching records).length
  ((matching records).rtake count).map fun found => (found.1, (records.take (found.2 + 1)).foldl catalogUpdate [])

theorem length_matching (records : List LogRecord) : (matching records).length = (records.filter (·.matchesFilter)).length := by
  have same : records.zipIdx.map Prod.fst = records := by simp
  calc (matching records).length
      = ((records.zipIdx.map Prod.fst).filter (·.matchesFilter)).length := by
        rw [List.filter_map, List.length_map]
        rfl
    _ = _ := by rw [same]

theorem renderRecords_tailRows (tailLines : Int) (records : List LogRecord) :
    (renderRecords [] 0 records (buildSelection records tailLines)).1 = tailRows tailLines records := by
  have count := length_matching records
  rw [buildSelection, renderRecords_rows, rowsFrom_eq, List.filter_map, length_matchIndexes, ← count, tailRows, List.rtake,
    List.map_drop]
  -- The slice starts where the last rows do, whichever of the two numbers is smaller.
  congr 1
  by_cases positive : 0 < tailLines
  · by_cases fewer : tailLines < ((matching records).length : Int)
    · rw [if_pos ⟨positive, fewer⟩, if_pos positive]
      omega
    · rw [if_neg (fun both => fewer both.2), if_pos positive]
      omega
  · rw [if_neg (fun both => positive both.1), if_neg positive]
    omega

/-- `logger_render_history`, for a log file and for any records that could be read from one. -/
theorem renderHistory_tailRows (tailLines : Int) :
    (∀ records, (renderRecords [] 0 records (buildSelection records tailLines)).1 = tailRows tailLines records) ∧
      ∀ filter text, (renderHistory filter tailLines text).1 = tailRows tailLines (readRecords filter text) :=
  ⟨renderRecords_tailRows tailLines, fun filter text => renderRecords_tailRows tailLines (readRecords filter text)⟩

/-! ## The array of the catalog -/

/-- `LogCatalog` as it is allocated: the cells of `entries`, as many as its capacity, of which `count` are in use. -/
structure CatalogArray where
  cells : List LogCatalogEntry
  count : Nat

namespace CatalogArray

def capacity (catalog : CatalogArray) : Nat := catalog.cells.length

def entries (catalog : CatalogArray) : LogCatalog := catalog.cells.take catalog.count

/-- `LogCatalog catalog = {0}`. -/
def empty : CatalogArray := ⟨[], 0⟩

/-- The index a search over the entries in use stops at. -/
def search (catalog : CatalogArray) (id : Text) : Option Nat := catalog.entries.findIdx? (·.id.text = id)

-- What `realloc` leaves in the cells it adds.
variable (junk : LogCatalogEntry)

/-- A full array doubles, and an empty one gets eight cells. -/
def reserve (catalog : CatalogArray) : CatalogArray :=
  if catalog.count = catalog.capacity then
    let next := if catalog.capacity = 0 then 8 else catalog.capacity * 2
    { catalog with cells := catalog.cells ++ List.replicate (next - catalog.capacity) junk }
  else catalog

/-- `logger_catalog_get`: the index of the entry it returns. -/
def loggerCatalogGet (catalog : CatalogArray) (id : Text) (create : Bool) : CatalogArray × Option Nat :=
  if id = [] then (catalog, none)
  else
    match catalog.search id with
    | some i => (catalog, some i)
    | none =>
      if create = false then (catalog, none)
      else
        let room := catalog.reserve junk
        (⟨room.cells.set room.count (.fresh (copyString 64 id)), room.count + 1⟩, some room.count)

def loggerCatalogFind (catalog : CatalogArray) (id : Text) : Option LogCatalogEntry :=
  if id = [] then none else catalog.entries.find? (·.id.text = id)

def loggerCatalogUpdate (catalog : CatalogArray) (record : LogRecord) : CatalogArray :=
  if record.containerId.text = [] then catalog
  else
    match catalog.loggerCatalogGet junk record.containerId.text true with
    | (found, none) => found
    | (found, some i) => { found with cells := found.cells.modify i (·.update record) }

/-- No entry in use lies outside the array. -/
def Fits (catalog : CatalogArray) : Prop := catalog.count ≤ catalog.capacity

theorem fits_empty : empty.Fits := Nat.le_refl 0

theorem reserve_spec {catalog : CatalogArray} (fits : catalog.Fits) :
    (catalog.reserve junk).count = catalog.count ∧ (catalog.reserve junk).entries = catalog.entries ∧
      catalog.count < (catalog.reserve junk).capacity := by
  unfold Fits capacity at fits
  unfold reserve
  by_cases full : catalog.count = catalog.capacity
  · rw [if_pos full]
    refine ⟨rfl, ?_, ?_⟩
    · exact List.take_append_of_le_length fits
    · have grown : ∀ extra, (CatalogArray.mk (catalog.cells ++ List.replicate extra junk) catalog.count).capacity =
          catalog.capacity + extra := by
        intro extra
        simp [capacity]
      rw [grown]
      by_cases none : catalog.capacity = 0
      · rw [if_pos none]
        omega
      · rw [if_neg none]
        omega
  · rw [if_neg full]
    exact ⟨rfl, rfl, Nat.lt_of_le_of_ne fits full⟩

/-- The entry of an id that is not there yet is appended. -/
theorem entries_create {catalog : CatalogArray} (entry : LogCatalogEntry) (room : catalog.count < catalog.capacity) :
    (CatalogArray.mk (catalog.cells.set catalog.count entry) (catalog.count + 1)).entries = catalog.entries ++ [entry] := by
  unfold capacity at room
  simp only [entries]
  rw [List.take_succ_eq_append_getElem (by simpa using room), List.take_set_of_le (Nat.le_refl _), List.getElem_set_self]

theorem catalogModify_of_findIdx {id : Buffer 64} {change : LogCatalogEntry → LogCatalogEntry} {catalog : LogCatalog} {i : Nat}
    (found : catalog.findIdx? (·.id.text = id.text) = some i) : catalogModify id change catalog = catalog.modify i change := by
  induction catalog generalizing i with
  | nil => cases found
  | cons entry rest ih =>
    unfold catalogModify
    by_cases own : entry.id = id
    · have first : i = 0 := by simpa [List.findIdx?_cons, own] using found.symm
      rw [if_pos own, first, List.modify_zero_cons]
    · have other : entry.id.text ≠ id.text := fun texts => own (Buffer.ext texts)
      simp only [List.findIdx?_cons, other, decide_false, Bool.false_eq_true, if_false, Option.map_eq_some_iff] at found
      obtain ⟨j, later, rfl⟩ := found
      rw [if_neg own, List.modify_succ_cons, ih later]

theorem catalogModify_of_absent {id : Buffer 64} {change : LogCatalogEntry → LogCatalogEntry} {catalog : LogCatalog}
    (absent : catalog.findIdx? (·.id.text = id.text) = none) :
    catalogModify id change catalog = catalog ++ [change (.fresh id)] := by
  induction catalog with
  | nil => rfl
  | cons entry rest ih =>
    have own : entry.id ≠ id := by
      rintro rfl
      simp [List.findIdx?_cons] at absent
    have other : entry.id.text ≠ id.text := fun texts => own (Buffer.ext texts)
    simp only [List.findIdx?_cons, other, decide_false, Bool.false_eq_true, if_false, Option.map_eq_none_iff] at absent
    rw [catalogModify, if_neg own, ih absent, List.cons_append]

/-- The array code does to the entries what `catalogUpdate` does to the list, and keeps them inside the array. -/
theorem loggerCatalogUpdate_spec {catalog : CatalogArray} (fits : catalog.Fits) (record : LogRecord) :
    (catalog.loggerCatalogUpdate junk record).Fits ∧
      (catalog.loggerCatalogUpdate junk record).entries = catalogUpdate catalog.entries record := by
  unfold loggerCatalogUpdate catalogUpdate
  by_cases nobody : record.containerId.text = []
  · rw [if_pos nobody, if_pos nobody]
    exact ⟨fits, rfl⟩
  · rw [if_neg nobody, if_neg nobody]
    unfold loggerCatalogGet
    rw [if_neg nobody]
    -- An entry that is found is changed in place; else one is put behind the last, where there is room by now.
    cases found : catalog.search record.containerId.text with
    | some i =>
      constructor
      · unfold Fits capacity at fits ⊢
        simpa using fits
      · rw [catalogModify_of_findIdx found]
        simp only [entries, List.take_modify]
    | none =>
      obtain ⟨count, same, room⟩ := reserve_spec junk fits
      rw [← count] at room
      have created := entries_create (.fresh record.containerId) room
      simp only [copyString_text, Bool.true_eq_false, if_false]
      generalize catalog.reserve junk = grown at count same room created
      constructor
      · unfold Fits capacity at *
        simpa [Nat.succ_le_iff] using room
      · have filled : grown.entries.length = grown.count := List.length_take_of_le (Nat.le_of_lt room)
        rw [catalogModify_of_absent found, ← same, ← List.modify_middle, ← created, filled]
        simp only [entries, List.take_modify]

/-- The catalog after all records of a list. -/
def ofRecords (records : List LogRecord) : CatalogArray := records.foldl (loggerCatalogUpdate junk) empty

theorem foldl_spec {catalog : CatalogArray} (fits : catalog.Fits) (records : List LogRecord) :
    (records.foldl (loggerCatalogUpdate junk) catalog).Fits ∧
      (records.foldl (loggerCatalogUpdate junk) catalog).entries = records.foldl catalogUpdate catalog.entries := by
  induction records generalizing catalog with
  | nil => exact ⟨fits, rfl⟩
  | cons record rest ih =>
    obtain ⟨kept, same⟩ := loggerCatalogUpdate_spec junk fits record
    rw [List.foldl_cons, List.foldl_cons, ← same]
    exact ih kept

theorem ofRecords_spec (records : List LogRecord) :
    (ofRecords junk records).Fits ∧ (ofRecords junk records).entries = records.foldl catalogUpdate [] :=
  foldl_spec junk fits_empty records

theorem loggerCatalogFind_ofRecords (records : List LogRecord) (id : Text) :
    (ofRecords junk records).loggerCatalogFind id = catalogFind (records.foldl catalogUpdate []) id := by
  rw [loggerCatalogFind, catalogFind, (ofRecords_spec junk records).2]

end CatalogArray

/-! ## One entry for each container -/

/-- A record changes the entry of its own id only. -/
theorem catalogFind_update (catalog : LogCatalog) (record : LogRecord) (id : Text) :
    catalogFind (catalogUpdate catalog record) id =
      if record.containerId.text = id ∧ id ≠ [] then
        some (((catalogFind catalog id).getD (.fresh record.containerId)).update record)
      else catalogFind catalog id := by
  unfold catalogFind
  by_cases given : id = []
  · simp [given]
  · rw [if_neg given, if_neg given]
    unfold catalogUpdate
    by_cases nobody : record.containerId.text = []
    · have elsewhere : record.containerId.text ≠ id := fun here => given (here.symm.trans nobody)
      rw [if_pos nobody, if_neg fun both => elsewhere both.1]
    · rw [if_neg nobody, find_catalogModify fun entry => (update_fields record entry).1]
      by_cases here : record.containerId.text = id
      · rw [if_pos here, if_pos ⟨here, given⟩]
      · rw [if_neg here, if_neg fun both => here both.1]

theorem catalogFind_own (records : List LogRecord) (id : Text) :
    catalogFind (records.foldl catalogUpdate []) id =
      catalogFind ((records.filter (·.containerId.text = id)).foldl catalogUpdate []) id := by
  refine List.foldl_filter_view (fun record => record.containerId.text) (fun catalog => catalogFind catalog id) id ?_ ?_ rfl records
  · intro catalog other record _ same
    rw [catalogFind_update, catalogFind_update, same]
  · intro catalog record elsewhere
    rw [catalogFind_update, if_neg fun both => elsewhere both.1]

/-- An update brings in no id but its own. -/
theorem mem_ids_catalogModify {id other : Buffer 64} {change : LogCatalogEntry → LogCatalogEntry}
    (same : ∀ entry, (change entry).id = entry.id) {catalog : LogCatalog} (member : other ∈ (catalogModify id change catalog).map (·.id)) :
    other = id ∨ other ∈ catalog.map (·.id) := by
  induction catalog with
  | nil => simpa [catalogModify, same, LogCatalogEntry.fresh] using member
  | cons entry rest ih =>
    unfold catalogModify at member
    split at member
    · simpa [same] using Or.inr member
    · rcases List.mem_cons.mp member with rfl | later
      · exact .inr List.mem_cons_self
      · exact (ih later).imp_right (List.mem_cons_of_mem _)

theorem ids_catalogModify {id : Buffer 64} {change : LogCatalogEntry → LogCatalogEntry} (same : ∀ entry, (change entry).id = entry.id)
    {catalog : LogCatalog} (distinct : (catalog.map (·.id)).Nodup) : ((catalogModify id change catalog).map (·.id)).Nodup := by
  induction catalog with
  | nil => exact List.nodup_singleton _
  | cons entry rest ih =>
    obtain ⟨fresh, distinct⟩ := List.nodup_cons.mp distinct
    unfold catalogModify
    by_cases own : entry.id = id
    · rw [if_pos own, List.map_cons, same]
      exact List.nodup_cons.mpr ⟨fresh, distinct⟩
    · rw [if_neg own, List.map_cons]
      refine List.nodup_cons.mpr ⟨fun member => ?_, ih distinct⟩
      rcases mem_ids_catalogModify same member with here | there
      · exact own here
      · exact fresh there

theorem nodup_foldl_catalogUpdate {catalog : LogCatalog} (distinct : (catalog.map (·.id)).Nodup) (records : List LogRecord) :
    ((records.foldl catalogUpdate catalog).map (·.id)).Nodup := by
  induction records generalizing catalog with
  | nil => exact distinct
  | cons record rest ih =>
    apply ih
    unfold catalogUpdate
    split
    · exact distinct
    · exact ids_catalogModify (fun entry => (update_fields record entry).1) distinct

/-- The entries of different containers do not meet: each is what its own records make of it, whatever stands between them. -/
theorem catalog_by_container (junk : LogCatalogEntry) (records : List LogRecord) :
    (∀ id, (CatalogArray.ofRecords junk records).loggerCatalogFind id =
        (CatalogArray.ofRecords junk (records.filter (·.containerId.text = id))).loggerCatalogFind id) ∧
      ((CatalogArray.ofRecords junk records).entries.map (·.id)).Nodup ∧
      (CatalogArray.ofRecords junk records).count ≤ (CatalogArray.ofRecords junk records).capacity ∧
      ∀ others : List LogRecord,
        (∀ id, id ≠ [] → others.filter (·.containerId.text = id) = records.filter (·.containerId.text = id)) →
        ∀ id, (CatalogArray.ofRecords junk others).loggerCatalogFind id = (CatalogArray.ofRecords junk records).loggerCatalogFind id := by
  obtain ⟨fits, same⟩ := CatalogArray.ofRecords_spec junk records
  refine ⟨fun id => ?_, ?_, fits, fun others interleaved id => ?_⟩
  · rw [CatalogArray.loggerCatalogFind_ofRecords, CatalogArray.loggerCatalogFind_ofRecords]
    exact catalogFind_own records id
  · rw [same]
    have start : (([] : LogCatalog).map (·.id)).Nodup := List.nodup_nil
    exact nodup_foldl_catalogUpdate start records
  · rw [CatalogArray.loggerCatalogFind_ofRecords, CatalogArray.loggerCatalogFind_ofRecords]
    by_cases given : id = []
    · simp [catalogFind, given]
    · rw [catalogFind_own others, catalogFind_own records, interleaved id given]

/-- A record as `parse_log_line` fills it in, of a container with this id. -/
def sampleRecord (event id message : Text) : LogRecord :=
  ⟨copyString 32 (lit "-"), copyString 64 event, copyString 768 message, copyString 64 id, true⟩

def createdOne : LogRecord := sampleRecord (lit "CONTAINER_CREATED") (lit "container-1") (lit "container-1 name=a")
def createdTwo : LogRecord := sampleRecord (lit "CONTAINER_CREATED") (lit "container-2") (lit "container-2 name=b")
def startedOne : LogRecord := sampleRecord (lit "CONTAINER_STARTED") (lit "container-1") (lit "container-1 pid=7")

/-- It makes no difference whether the second container was created before or after the first was started. -/
theorem catalog_by_container_two :
    (CatalogArray.ofRecords (.fresh (copyString 64 [])) [createdOne, startedOne, createdTwo]).loggerCatalogFind (lit "container-1") =
      (CatalogArray.ofRecords (.fresh (copyString 64 [])) [createdOne, createdTwo, startedOne]).loggerCatalogFind (lit "container-1") := by
  refine (catalog_by_container (.fresh (copyString 64 [])) [createdOne, createdTwo, startedOne]).2.2.2
    [createdOne, startedOne, createdTwo] (fun other _ => ?_) (lit "container-1")
  have one : createdOne.containerId.text = lit "container-1" := by decide
  have again : startedOne.containerId.text = lit "container-1" := by decide
  have two : createdTwo.containerId.text = lit "container-2" := by decide
  by_cases first : lit "container-1" = other
  · have second : lit "container-2" ≠ other := by
      rw [← first]
      decide
    simp [one, again, two, first, second]
  · simp [List.filter_cons, one, again, first]

end ContainerRuntime.Logger
