import Mathlib.Data.List.Basic
import Mathlib.Data.Nat.Notation

/-!
Finite trees with labelled leaves and labelled inner nodes, and their traversal
in document order.

A tree can be walked recursively, or read as the flat sequence of its events:
an inner node is opened, its children follow, it is closed again. A leaf is
seen in a context: the events before it, and the inner nodes around it. The
lemmas say how the two readings hang together, so that a recursion over a tree
and an automaton over its events can be compared leaf by leaf or label by label.
-/

namespace HtmlBenchmark.Library

inductive OrderedTree (α β : Type*)
  | leaf (a : α)
  | inner (b : β) (children : List (OrderedTree α β))

inductive Event (α β : Type*)
  | start (b : β)
  | leaf (a : α)
  | finish (b : β)
  deriving DecidableEq, Repr

/-- A leaf, the events before it and the inner nodes around it, outermost
first. -/
structure Context (α β : Type*) where
  past : List (Event α β)
  path : List β
  leaf : α

namespace OrderedTree

variable {α β γ δ : Type*}

mutual

def map (f : α → γ) (g : β → δ) : OrderedTree α β → OrderedTree γ δ
  | .leaf a => .leaf (f a)
  | .inner b ts => .inner (g b) (mapAll f g ts)

def mapAll (f : α → γ) (g : β → δ) : List (OrderedTree α β) → List (OrderedTree γ δ)
  | [] => []
  | t :: ts => t.map f g :: mapAll f g ts

end

mutual

/-- The labels of the inner nodes, each before those below it. -/
def labels : OrderedTree α β → List β
  | .leaf _ => []
  | .inner b ts => b :: labelsAll ts

def labelsAll : List (OrderedTree α β) → List β
  | [] => []
  | t :: ts => t.labels ++ labelsAll ts

end

mutual

/-- The labels outside the subtrees whose root satisfies `p`. -/
def outside (p : β → Bool) : OrderedTree α β → List β
  | .leaf _ => []
  | .inner b ts => if p b then [] else b :: outsideAll p ts

def outsideAll (p : β → Bool) : List (OrderedTree α β) → List β
  | [] => []
  | t :: ts => t.outside p ++ outsideAll p ts

end

mutual

/-- The labels of these subtrees. -/
def inside (p : β → Bool) : OrderedTree α β → List β
  | .leaf _ => []
  | .inner b ts => if p b then b :: labelsAll ts else insideAll p ts

def insideAll (p : β → Bool) : List (OrderedTree α β) → List β
  | [] => []
  | t :: ts => t.inside p ++ insideAll p ts

end

mutual

/-- The leaves, in document order. -/
def fringe : OrderedTree α β → List α
  | .leaf a => [a]
  | .inner _ ts => fringeAll ts

def fringeAll : List (OrderedTree α β) → List α
  | [] => []
  | t :: ts => t.fringe ++ fringeAll ts

end

mutual

/-- The tree and all trees below it. -/
def subtrees : OrderedTree α β → List (OrderedTree α β)
  | .leaf a => [.leaf a]
  | .inner b ts => .inner b ts :: subtreesAll ts

def subtreesAll : List (OrderedTree α β) → List (OrderedTree α β)
  | [] => []
  | t :: ts => t.subtrees ++ subtreesAll ts

end

mutual

def events : OrderedTree α β → List (Event α β)
  | .leaf a => [.leaf a]
  | .inner b ts => .start b :: (eventsAll ts ++ [.finish b])

def eventsAll : List (OrderedTree α β) → List (Event α β)
  | [] => []
  | t :: ts => t.events ++ eventsAll ts

end

mutual

/-- The leaves in their contexts; `past` and `path` say where the tree stands. -/
def contexts (past : List (Event α β)) (path : List β) : OrderedTree α β → List (Context α β)
  | .leaf a => [{ past := past, path := path, leaf := a }]
  | .inner b ts => contextsAll (past ++ [.start b]) (path ++ [b]) ts

def contextsAll (past : List (Event α β)) (path : List β) :
    List (OrderedTree α β) → List (Context α β)
  | [] => []
  | t :: ts => t.contexts past path ++ contextsAll (past ++ t.events) path ts

end

/-- The inner nodes opened by a sequence of events. -/
def starts : List (Event α β) → List β
  | [] => []
  | .start b :: es => b :: starts es
  | .leaf _ :: es => starts es
  | .finish _ :: es => starts es

/-- The leaves of a sequence of events, each with the events before it. -/
def leaves (past : List (Event α β)) : List (Event α β) → List (List (Event α β) × α)
  | [] => []
  | .leaf a :: es => (past, a) :: leaves (past ++ [.leaf a]) es
  | .start b :: es => leaves (past ++ [.start b]) es
  | .finish b :: es => leaves (past ++ [.finish b]) es

theorem fringeAll_eq_flatMap (ts : List (OrderedTree α β)) : fringeAll ts = ts.flatMap fringe := by
  induction ts with
  | nil => rfl
  | cons t ts ih => rw [fringeAll, ih, List.flatMap_cons]

mutual

theorem labels_map (f : α → γ) (g : β → δ) : ∀ t : OrderedTree α β,
    (t.map f g).labels = t.labels.map g
  | .leaf _ => rfl
  | .inner b ts => by rw [map, labels, labels, labelsAll_mapAll f g ts, List.map_cons]

theorem labelsAll_mapAll (f : α → γ) (g : β → δ) : ∀ ts : List (OrderedTree α β),
    labelsAll (mapAll f g ts) = (labelsAll ts).map g
  | [] => rfl
  | t :: ts => by
      rw [mapAll, labelsAll, labelsAll, labels_map f g t, labelsAll_mapAll f g ts, List.map_append]

end

mutual

theorem labels_perm (p : β → Bool) : ∀ t : OrderedTree α β,
    t.labels.Perm (t.outside p ++ t.inside p)
  | .leaf _ => .refl []
  | .inner b ts => by
      rw [labels, outside, inside]
      split_ifs
      · exact .refl _
      · exact (labelsAll_perm p ts).cons b

theorem labelsAll_perm (p : β → Bool) : ∀ ts : List (OrderedTree α β),
    (labelsAll ts).Perm (outsideAll p ts ++ insideAll p ts)
  | [] => .refl []
  | t :: ts => by
      rw [labelsAll, outsideAll, insideAll]
      refine ((labels_perm p t).append (labelsAll_perm p ts)).trans ?_
      simp only [List.append_assoc]
      refine List.Perm.append_left _ ?_
      rw [← List.append_assoc, ← List.append_assoc]
      exact List.perm_append_comm.append_right _

end

theorem mem_subtrees_self (t : OrderedTree α β) : t ∈ t.subtrees := by
  cases t <;> exact List.mem_cons_self

/-! ### Reading the events -/

theorem starts_append (es es' : List (Event α β)) :
    starts (es ++ es') = starts es ++ starts es' := by
  induction es with
  | nil => rfl
  | cons e es ih => cases e <;> simp [starts, ih]

theorem leaves_append (past es es' : List (Event α β)) :
    leaves past (es ++ es') = leaves past es ++ leaves (past ++ es) es' := by
  induction es generalizing past with
  | nil => simp [leaves]
  | cons e es ih => cases e <;> simp [leaves, ih]

mutual

/-- The events open the inner nodes in the order of the labels. -/
theorem starts_events : ∀ t : OrderedTree α β, starts t.events = t.labels
  | .leaf _ => rfl
  | .inner b ts => by
      rw [events, starts, starts_append, starts_eventsAll ts, labels]
      exact congrArg _ (List.append_nil _)

theorem starts_eventsAll : ∀ ts : List (OrderedTree α β), starts (eventsAll ts) = labelsAll ts
  | [] => rfl
  | t :: ts => by rw [eventsAll, starts_append, starts_events t, starts_eventsAll ts, labelsAll]

end

mutual

/-- A leaf has the same past in the tree and among the events. -/
theorem leaves_events (path : List β) : ∀ (past : List (Event α β)) (t : OrderedTree α β),
    leaves past t.events = (t.contexts past path).map fun c => (c.past, c.leaf)
  | _, .leaf _ => rfl
  | past, .inner b ts => by
      rw [events, leaves, leaves_append, leaves_eventsAll (path ++ [b]) _ ts, contexts]
      exact List.append_nil _

theorem leaves_eventsAll (path : List β) : ∀ (past : List (Event α β))
    (ts : List (OrderedTree α β)),
    leaves past (eventsAll ts) = (contextsAll past path ts).map fun c => (c.past, c.leaf)
  | _, [] => rfl
  | past, t :: ts => by
      rw [eventsAll, leaves_append, leaves_events path past t,
        leaves_eventsAll path (past ++ t.events) ts, contextsAll, List.map_append]

end

mutual

/-- The way down to a tree leads on to its leaves. -/
theorem path_prefix (path : List β) : ∀ (past : List (Event α β)) (t : OrderedTree α β),
    ∀ c ∈ t.contexts past path, path <+: c.path
  | _, .leaf _, c, hc => by
      rw [contexts, List.mem_singleton] at hc
      exact hc ▸ List.prefix_rfl
  | past, .inner b ts, c, hc =>
      (List.prefix_append path [b]).trans (path_prefixAll (path ++ [b]) _ ts c hc)

theorem path_prefixAll (path : List β) : ∀ (past : List (Event α β)) (ts : List (OrderedTree α β)),
    ∀ c ∈ contextsAll past path ts, path <+: c.path
  | _, [], _, hc => absurd hc List.not_mem_nil
  | past, t :: ts, c, hc => by
      rw [contextsAll, List.mem_append] at hc
      rcases hc with hc | hc
      · exact path_prefix path past t c hc
      · exact path_prefixAll path (past ++ t.events) ts c hc

end

theorem path_leaves (path : List β) (as : List α) (past : List (Event α β)) :
    ∀ c ∈ contextsAll past path (as.map OrderedTree.leaf), c.path = path := by
  induction as generalizing past with
  | nil => exact fun c hc => absurd hc List.not_mem_nil
  | cons a as ih =>
      intro c hc
      rw [List.map_cons, contextsAll, contexts, List.mem_append, List.mem_singleton] at hc
      rcases hc with rfl | hc
      · rfl
      · exact ih _ c hc

end OrderedTree

end HtmlBenchmark.Library
