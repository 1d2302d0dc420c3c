-- SUMMARY: Laws of text trees: keyed entries, regular trees, depth, and respelling the strings.
import Mathlib.Data.List.Nodup
import Ssz.Text.Tree

/-!
# Laws of text trees

The trees that are written hold no numbers and give each key once. Such a tree is
*regular*, and the readers are shown to give back regular trees. `Tree.respell`
says what becomes of a tree if the format it went through does not tell strings
from the other scalars.
-/

namespace Ssz.Text.Tree

/-! ## Entries -/

theorem insert_of_notMem {key : String} {t : Tree} {entries : List (String × Tree)}
    (h : key ∉ entries.map Prod.fst) : insert key t entries = entries ++ [(key, t)] := by
  induction entries with
  | nil => rfl
  | cons entry entries ih =>
    obtain ⟨k, u⟩ := entry
    rw [List.map_cons, List.mem_cons, not_or] at h
    rw [insert, if_neg (Ne.symm h.1), ih h.2, List.cons_append]

/-- Entries that give each key once are kept as they are. -/
theorem ofEntries_of_nodup {entries : List (String × Tree)} (h : (entries.map Prod.fst).Nodup) :
    ofEntries entries = entries := by
  have hfold : ∀ done : List (String × Tree), ((done ++ entries).map Prod.fst).Nodup →
      entries.foldl (fun acc entry => insert entry.1 entry.2 acc) done = done ++ entries := by
    clear h
    induction entries with
    | nil =>
      intro done _
      rw [List.foldl_nil, List.append_nil]
    | cons entry entries ih =>
      intro done hnodup
      obtain ⟨key, t⟩ := entry
      have hnew : key ∉ done.map Prod.fst := by
        rw [List.map_append, List.map_cons, List.nodup_append] at hnodup
        intro hmem
        exact hnodup.2.2 _ hmem _ List.mem_cons_self rfl
      simp only [List.foldl_cons, insert_of_notMem hnew]
      rw [ih]
      · exact List.append_assoc ..
      · rwa [List.append_assoc, List.singleton_append]
  exact hfold [] h

theorem lookup_of_mem {entries : List (String × Tree)} (h : (entries.map Prod.fst).Nodup)
    {key : String} {t : Tree} (hmem : (key, t) ∈ entries) : entries.lookup key = some t := by
  induction entries with
  | nil => cases hmem
  | cons entry entries ih =>
    obtain ⟨k, u⟩ := entry
    rw [List.map_cons, List.nodup_cons] at h
    rcases List.mem_cons.1 hmem with heq | hmem
    · cases heq
      exact List.lookup_cons_self
    · have hne : key ≠ k := by
        intro heq
        exact h.1 (List.mem_map.2 ⟨(key, t), hmem, heq⟩)
      rw [List.lookup_cons, beq_eq_false_iff_ne.2 hne]
      exact ih h.2 hmem

theorem mem_of_lookup {entries : List (String × Tree)} {key : String} {t : Tree}
    (h : entries.lookup key = some t) : (key, t) ∈ entries := by
  obtain ⟨before, after, rfl, -⟩ := List.lookup_eq_some_iff.1 h
  exact List.mem_append_right _ List.mem_cons_self

/-! ## Depth -/

mutual

/-- How many arrays and objects are nested. -/
def depth : Tree → Nat
  | .array items => depthItems items + 1
  | .object entries => depthEntries entries + 1
  | _ => 0
termination_by structural t => t

def depthItems : List Tree → Nat
  | [] => 0
  | t :: items => max t.depth (depthItems items)
termination_by structural items => items

def depthEntries : List (String × Tree) → Nat
  | [] => 0
  | (_, t) :: entries => max t.depth (depthEntries entries)
termination_by structural entries => entries

end

theorem depthItems_le {items : List Tree} {bound : Nat} :
    depthItems items ≤ bound ↔ ∀ t ∈ items, t.depth ≤ bound := by
  induction items with
  | nil => simp only [depthItems, Nat.zero_le, List.not_mem_nil, false_imp_iff, implies_true]
  | cons t items ih => rw [depthItems, Nat.max_le, ih, List.forall_mem_cons]

theorem depthEntries_le {entries : List (String × Tree)} {bound : Nat} :
    depthEntries entries ≤ bound ↔ ∀ entry ∈ entries, entry.2.depth ≤ bound := by
  induction entries with
  | nil => simp only [depthEntries, Nat.zero_le, List.not_mem_nil, false_imp_iff, implies_true]
  | cons entry entries ih => rw [depthEntries, Nat.max_le, ih, List.forall_mem_cons]

/-! ## Regular trees -/

/-- There are no numbers, each object gives each key once, and the strings and keys are among those
    that are allowed. -/
inductive Regular (text key : String → Prop) : Tree → Prop
  | null : Regular text key .null
  | bool (b : Bool) : Regular text key (.bool b)
  | string {s} : text s → Regular text key (.string s)
  | array {items} : (∀ t ∈ items, Regular text key t) → Regular text key (.array items)
  | object {entries} : (entries.map Prod.fst).Nodup → (∀ entry ∈ entries, key entry.1) →
      (∀ entry ∈ entries, Regular text key entry.2) → Regular text key (.object entries)

/-! ## Respelling -/

mutual

/-- The tree with each string read as `spelling` says. -/
def respell (spelling : String → Tree) : Tree → Tree
  | .string s => spelling s
  | .array items => .array (respellItems spelling items)
  | .object entries => .object (respellEntries spelling entries)
  | t => t
termination_by structural t => t

def respellItems (spelling : String → Tree) : List Tree → List Tree
  | [] => []
  | t :: items => t.respell spelling :: respellItems spelling items
termination_by structural items => items

def respellEntries (spelling : String → Tree) : List (String × Tree) → List (String × Tree)
  | [] => []
  | (key, t) :: entries => (key, t.respell spelling) :: respellEntries spelling entries
termination_by structural entries => entries

end

variable {spelling : String → Tree}

theorem respellItems_eq_map (items : List Tree) :
    respellItems spelling items = items.map (respell spelling) := by
  induction items with
  | nil => rfl
  | cons t items ih => rw [respellItems, ih, List.map_cons]

theorem respellEntries_eq_map (entries : List (String × Tree)) :
    respellEntries spelling entries
      = entries.map fun entry => (entry.1, entry.2.respell spelling) := by
  induction entries with
  | nil => rfl
  | cons entry entries ih => rw [respellEntries, ih, List.map_cons]

theorem keys_respellEntries (entries : List (String × Tree)) :
    (respellEntries spelling entries).map Prod.fst = entries.map Prod.fst := by
  rw [respellEntries_eq_map, List.map_map]
  rfl

theorem length_respellItems (items : List Tree) :
    (respellItems spelling items).length = items.length := by
  rw [respellItems_eq_map, List.length_map]

/-- A format that keeps strings as they are keeps regular trees as they are. -/
theorem respell_string {text key : String → Prop} {t : Tree} (h : t.Regular text key) :
    t.respell .string = t := by
  induction h with
  | null | bool | string => rfl
  | @array items _ ih =>
    rw [respell, respellItems_eq_map, List.map_congr_left ih, List.map_id']
  | @object entries _ _ _ ih =>
    have hentries : ∀ entry ∈ entries, (entry.1, entry.2.respell .string) = entry :=
      fun entry hentry => by rw [ih entry hentry]
    rw [respell, respellEntries_eq_map, List.map_congr_left hentries, List.map_id']

end Ssz.Text.Tree
