import SqlStore.Expr.Eval

/-!
# Columns one by one

Columns whose two lists are side by side are a list of columns, each a name with its type, in another form
(`Columns.ofList_toList`, `Columns.toList_ofList`).
-/

namespace SqlStore.Columns

variable {columns : Columns} {cs : List Column} {name : String}

def ofList (cs : List Column) : Columns := ⟨cs.map Column.name, cs.map Column.type⟩

def toList (columns : Columns) : List Column := List.zipWith Column.mk columns.names columns.types

@[simp] theorem toList_ofList (cs : List Column) : (ofList cs).toList = cs := by
  simp [toList, ofList]

theorem length_toList (h : columns.Parallel) : columns.toList.length = columns.names.length := by
  rw [toList, List.length_zipWith, h, Nat.min_self]

theorem map_name_toList (h : columns.Parallel) : columns.toList.map Column.name = columns.names := by
  refine List.ext_getElem (by rw [List.length_map, length_toList h]) fun i hi hi' => ?_
  simp [toList]

theorem map_type_toList (h : columns.Parallel) : columns.toList.map Column.type = columns.types := by
  refine List.ext_getElem (by rw [List.length_map, length_toList h, h]) fun i hi hi' => ?_
  simp [toList]

theorem ofList_toList (h : columns.Parallel) : ofList columns.toList = columns := by
  rw [ofList, map_name_toList h, map_type_toList h]

theorem place?_ofList : (ofList cs).place? name = cs.findIdx? (·.name = name) := by
  rw [place?, ofList, List.findIdx?_map]
  rfl

theorem typeAt_ofList {i : Nat} {c : Column} (h : cs[i]? = some c) : (ofList cs).typeAt i = .ok c.type := by
  rw [typeAt_eq_ok_iff, ofList, List.getElem?_map, h]
  rfl

end SqlStore.Columns
