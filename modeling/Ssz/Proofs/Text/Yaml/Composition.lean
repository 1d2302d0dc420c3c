-- SUMMARY: Composing the events of a node gives back the node.
import Ssz.Text.Yaml.Node

/-!
# Composition

A node without aliases is laid out as events in one way. The composer undoes
this, for every node that does not nest too deeply; anchors play no part.
-/

namespace Ssz.Text.Yaml.Node

variable {α : Type}

/-! ## Events of a node -/

mutual

/-- The events of a node, without anchors. -/
def events : Node → List (Event α)
  | .scalar tag style text => [.scalar ⟨none, tag⟩ style text]
  | .sequence tag items => .sequenceStart ⟨none, tag⟩ :: itemEvents items
  | .mapping tag entries => .mappingStart ⟨none, tag⟩ :: entryEvents entries
termination_by structural node => node

def itemEvents : List Node → List (Event α)
  | [] => [.sequenceEnd]
  | node :: nodes => node.events ++ itemEvents nodes
termination_by structural nodes => nodes

def entryEvents : List (Node × Node) → List (Event α)
  | [] => [.mappingEnd]
  | (key, value) :: entries => key.events ++ (value.events ++ entryEvents entries)
termination_by structural entries => entries

end

theorem length_events_pos (node : Node) : 0 < (node.events (α := α)).length := by
  cases node <;> exact Nat.zero_lt_succ _

theorem length_itemEvents_pos (nodes : List Node) : 0 < (itemEvents (α := α) nodes).length := by
  cases nodes with
  | nil => exact Nat.zero_lt_one
  | cons node nodes =>
    rw [itemEvents, List.length_append]
    exact Nat.add_pos_left (length_events_pos node) _

theorem length_entryEvents_pos (entries : List (Node × Node)) :
    0 < (entryEvents (α := α) entries).length := by
  cases entries with
  | nil => exact Nat.zero_lt_one
  | cons entry entries =>
    rw [entryEvents, List.length_append]
    exact Nat.add_pos_left (length_events_pos entry.1) _

/-! ## Depth -/

mutual

/-- How many collections are nested. -/
def depth : Node → Nat
  | .scalar .. => 0
  | .sequence _ items => depthItems items + 1
  | .mapping _ entries => depthEntries entries + 1
termination_by structural node => node

def depthItems : List Node → Nat
  | [] => 0
  | node :: nodes => max node.depth (depthItems nodes)
termination_by structural nodes => nodes

def depthEntries : List (Node × Node) → Nat
  | [] => 0
  | (key, value) :: entries => max key.depth (max value.depth (depthEntries entries))
termination_by structural entries => entries

end

/-! ## Anchors -/

/-- Resolving anchors leaves the events as they are. -/
def Unlinked (events : List Event.Named) (events' : List (Event Nat)) : Prop :=
  ∀ names position starts, resolveAnchors names position starts events = some (events', starts)

theorem unlinked_nil : Unlinked [] [] := fun _ _ _ => rfl

theorem Unlinked.cons {e : Event.Named} {e' : Event Nat} {rest : List Event.Named}
    {rest' : List (Event Nat)} (hanchor : anchorOf e = none)
    (hlabel : ∀ names, relabel names e = some e') (h : Unlinked rest rest') :
    Unlinked (e :: rest) (e' :: rest') := by
  intro names position starts
  rw [resolveAnchors, hlabel, hanchor]
  change Option.bind (resolveAnchors names (position + 1) starts rest) _ = _
  rw [h]
  rfl

mutual

theorem unlinked_events : (node : Node) → {rest : List Event.Named} → {rest' : List (Event Nat)} →
    Unlinked rest rest' → Unlinked (node.events ++ rest) (node.events ++ rest')
  | .scalar .., _, _, h => h.cons rfl fun _ => rfl
  | .sequence _ items, _, _, h => (unlinked_itemEvents items h).cons rfl fun _ => rfl
  | .mapping _ entries, _, _, h => (unlinked_entryEvents entries h).cons rfl fun _ => rfl
termination_by structural node => node

theorem unlinked_itemEvents : (nodes : List Node) → {rest : List Event.Named} →
    {rest' : List (Event Nat)} → Unlinked rest rest' →
    Unlinked (itemEvents nodes ++ rest) (itemEvents nodes ++ rest')
  | [], _, _, h => h.cons rfl fun _ => rfl
  | node :: nodes, _, _, h => by
    rw [itemEvents, itemEvents, List.append_assoc, List.append_assoc]
    exact unlinked_events node (unlinked_itemEvents nodes h)
termination_by structural nodes => nodes

theorem unlinked_entryEvents : (entries : List (Node × Node)) → {rest : List Event.Named} →
    {rest' : List (Event Nat)} → Unlinked rest rest' →
    Unlinked (entryEvents entries ++ rest) (entryEvents entries ++ rest')
  | [], _, _, h => h.cons rfl fun _ => rfl
  | (key, value) :: entries, _, _, h => by
    rw [entryEvents, entryEvents, List.append_assoc, List.append_assoc, List.append_assoc,
      List.append_assoc]
    exact unlinked_events key (unlinked_events value (unlinked_entryEvents entries h))
termination_by structural entries => entries

end

/-! ## Composing -/

section Compose

variable {at? : Nat → Option (List (Event Nat))} {aliases : Nat} {rest : List (Event Nat)}

theorem composeItems_cons (fuel depth : Nat) (node : Node) :
    composeItems at? (fuel + 1) depth ⟨node.events ++ rest, aliases⟩ = do
      let (first, after) ← compose at? fuel depth ⟨node.events ++ rest, aliases⟩
      let (nodes, after) ← composeItems at? fuel depth after
      return (first :: nodes, after) := by
  cases node <;> rfl

theorem composeEntries_cons (fuel depth : Nat) (node : Node) :
    composeEntries at? (fuel + 1) depth ⟨node.events ++ rest, aliases⟩ = do
      let (key, after) ← compose at? fuel depth ⟨node.events ++ rest, aliases⟩
      let (value, after) ← compose at? fuel depth after
      let (entries, after) ← composeEntries at? fuel depth after
      return ((key, value) :: entries, after) := by
  cases node <;> rfl

mutual

theorem compose_events : (node : Node) → {fuel depth : Nat} → {rest : List (Event Nat)} →
    (node.events (α := Nat)).length ≤ fuel → node.depth ≤ depth →
    compose at? fuel depth ⟨node.events ++ rest, aliases⟩ = some (node, ⟨rest, aliases⟩)
  | .scalar .., fuel + 1, _, _, _, _ => rfl
  | .sequence _ items, fuel + 1, depth + 1, rest, hfuel, hdepth => by
    have hitems : composeItems at? fuel depth ⟨itemEvents items ++ rest, aliases⟩ = _ :=
      composeItems_itemEvents items (Nat.le_of_succ_le_succ hfuel) (Nat.le_of_succ_le_succ hdepth)
    simp only [events, List.cons_append, compose, hitems]
    rfl
  | .mapping _ entries, fuel + 1, depth + 1, rest, hfuel, hdepth => by
    have hentries : composeEntries at? fuel depth ⟨entryEvents entries ++ rest, aliases⟩ = _ :=
      composeEntries_entryEvents entries (Nat.le_of_succ_le_succ hfuel)
        (Nat.le_of_succ_le_succ hdepth)
    simp only [events, List.cons_append, compose, hentries]
    rfl
termination_by structural node => node

theorem composeItems_itemEvents : (nodes : List Node) → {fuel depth : Nat} →
    {rest : List (Event Nat)} → (itemEvents (α := Nat) nodes).length ≤ fuel →
    depthItems nodes ≤ depth →
    composeItems at? fuel depth ⟨itemEvents nodes ++ rest, aliases⟩ = some (nodes, ⟨rest, aliases⟩)
  | [], fuel + 1, _, _, _, _ => rfl
  | node :: nodes, fuel, depth, rest, hfuel, hdepth => by
    have hpos := length_events_pos (α := Nat) node
    have hpos' := length_itemEvents_pos (α := Nat) nodes
    rw [itemEvents, List.length_append] at hfuel
    rw [depthItems, Nat.max_le] at hdepth
    obtain ⟨fuel, rfl⟩ : ∃ n, fuel = n + 1 := Nat.exists_eq_succ_of_ne_zero (by omega)
    have hnode : compose at? fuel depth ⟨node.events ++ (itemEvents nodes ++ rest), aliases⟩ = _ :=
      compose_events node (by omega) hdepth.1
    have hnodes : composeItems at? fuel depth ⟨itemEvents nodes ++ rest, aliases⟩ = _ :=
      composeItems_itemEvents nodes (by omega) hdepth.2
    rw [itemEvents, List.append_assoc, composeItems_cons]
    simp [hnode, hnodes]
termination_by structural nodes => nodes

theorem composeEntries_entryEvents : (entries : List (Node × Node)) → {fuel depth : Nat} →
    {rest : List (Event Nat)} → (entryEvents (α := Nat) entries).length ≤ fuel →
    depthEntries entries ≤ depth →
    composeEntries at? fuel depth ⟨entryEvents entries ++ rest, aliases⟩
      = some (entries, ⟨rest, aliases⟩)
  | [], fuel + 1, _, _, _, _ => rfl
  | (key, value) :: entries, fuel, depth, rest, hfuel, hdepth => by
    have hpos := length_events_pos (α := Nat) key
    have hpos' := length_events_pos (α := Nat) value
    have hpos'' := length_entryEvents_pos (α := Nat) entries
    rw [entryEvents, List.length_append, List.length_append] at hfuel
    rw [depthEntries, Nat.max_le, Nat.max_le] at hdepth
    obtain ⟨fuel, rfl⟩ : ∃ n, fuel = n + 1 := Nat.exists_eq_succ_of_ne_zero (by omega)
    have hkey : compose at? fuel depth
        ⟨key.events ++ (value.events ++ (entryEvents entries ++ rest)), aliases⟩ = _ :=
      compose_events key (by omega) hdepth.1
    have hvalue : compose at? fuel depth
        ⟨value.events ++ (entryEvents entries ++ rest), aliases⟩ = _ :=
      compose_events value (by omega) hdepth.2.1
    have hentries : composeEntries at? fuel depth ⟨entryEvents entries ++ rest, aliases⟩ = _ :=
      composeEntries_entryEvents entries (by omega) hdepth.2.2
    rw [entryEvents, List.append_assoc, List.append_assoc, composeEntries_cons]
    simp [hkey, hvalue, hentries]
termination_by structural entries => entries

end

end Compose

/-- A node that does not nest too deeply is what its events make. -/
theorem ofEvents?_events {node : Node} (h : node.depth ≤ maxDepth) :
    ofEvents? node.events = some node := by
  have hresolve : resolveAnchors [] 0 [] (node.events : List Event.Named)
      = some (node.events, []) := by
    have hunlinked := unlinked_events node unlinked_nil [] 0 []
    rwa [List.append_nil, List.append_nil] at hunlinked
  have hfuel : (node.events (α := Nat)).length
      ≤ (maxDepth + 2) * (2 * (node.events (α := Nat)).length + 4) := by
    rw [maxDepth]
    omega
  have hcompose (at? : Nat → Option (List (Event Nat))) (aliases : Nat) :
      compose at? ((maxDepth + 2) * (2 * (node.events (α := Nat)).length + 4)) maxDepth
        ⟨node.events, aliases⟩ = some (node, ⟨[], aliases⟩) := by
    have hnode : compose at? _ maxDepth ⟨node.events ++ [], aliases⟩ = _ :=
      compose_events node hfuel h
    rwa [List.append_nil] at hnode
  rw [ofEvents?, hresolve]
  change Option.bind (compose _ _ _ _) _ = _
  rw [hcompose]
  rfl

end Ssz.Text.Yaml.Node
