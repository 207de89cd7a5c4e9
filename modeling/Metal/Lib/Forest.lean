import Mathlib.Algebra.Group.Int.Units
import Mathlib.Logic.Relation

namespace Metal.Lib

open Function

/-! Chains of nodes that wait for one another, below the roots of some owners. A node knows
the node it waits for and the node that waits for it; a node that has ended waits no more. -/

structure Forest (Node Owner : Type) where
  ended : Node → Bool
  awaiting : Node → Option Node
  waiter : Node → Option Node
  root : Owner → Option Node

namespace Forest

variable {Node Owner : Type} (f : Forest Node Owner)

def Waits (parent child : Node) : Prop :=
  f.ended parent = false ∧ f.awaiting parent = some child

def IsRoot (node : Node) : Prop := ∃ owner, f.root owner = some node

def OnChain (owner : Owner) (node : Node) : Prop :=
  ∃ top, f.root owner = some top ∧ f.ended top = false ∧
    Relation.ReflTransGen f.Waits top node

structure Sound : Prop where
  waits : ∀ {parent child}, f.Waits parent child →
    f.ended child = false ∧ f.waiter child = some parent ∧ ¬f.IsRoot child
  roots : ∀ {owner owner' node}, f.root owner = some node → f.root owner' = some node →
    owner = owner'
  tops : ∀ {node}, f.IsRoot node → f.waiter node = none

variable {f} {owner owner' : Owner} {node parent child : Node}

theorem OnChain.top (root : f.root owner = some node) (live : f.ended node = false) :
    f.OnChain owner node :=
  ⟨node, root, live, .refl⟩

theorem OnChain.next (chain : f.OnChain owner parent) (waits : f.Waits parent child) :
    f.OnChain owner child := by
  obtain ⟨top, root, live, path⟩ := chain
  exact ⟨top, root, live, path.tail waits⟩

namespace Sound

variable (sound : f.Sound)

include sound

theorem unique (first : f.Waits parent child) {other : Node} (second : f.Waits other child) :
    parent = other :=
  Option.some.inj ((sound.waits first).2.1.symm.trans (sound.waits second).2.1)

theorem not_waits (root : f.IsRoot child) : ¬f.Waits parent child :=
  fun waits => (sound.waits waits).2.2 root

theorem live (chain : f.OnChain owner node) : f.ended node = false := by
  obtain ⟨top, _, live, path⟩ := chain
  induction path with
  | refl => exact live
  | tail _ last _ => exact (sound.waits last).1

theorem reached {top : Node} (root : f.root owner = some top) (live : f.ended top = false)
    (path : Relation.ReflTransGen (fun p c => f.awaiting p = some c) top node) :
    f.OnChain owner node := by
  induction path with
  | refl => exact .top root live
  | tail _ awaits ih => exact ih.next ⟨sound.live ih, awaits⟩

theorem disjoint (first : f.OnChain owner node) (second : f.OnChain owner' node) :
    owner = owner' := by
  obtain ⟨top, root, _, path⟩ := first
  obtain ⟨top', root', _, path'⟩ := second
  suffices same : top = top' by
    subst same
    exact sound.roots root root'
  induction path with
  | refl =>
      cases path' with
      | refl => rfl
      | tail _ last => exact absurd last (sound.not_waits ⟨owner, root⟩)
  | tail _ last ih =>
      cases path' with
      | refl => exact absurd last (sound.not_waits ⟨owner', root'⟩)
      | tail path' last' =>
          have same := sound.unique last last'
          subst same
          exact ih path'

theorem waited (chain : f.OnChain owner node) (waiter : f.waiter node = some parent) :
    f.OnChain owner parent ∧ f.Waits parent node := by
  obtain ⟨top, root, live, path⟩ := chain
  cases path with
  | refl =>
      rw [sound.tops ⟨owner, root⟩] at waiter
      cases waiter
  | tail path last =>
      rw [(sound.waits last).2.1] at waiter
      cases waiter
      exact ⟨⟨top, root, live, path⟩, last⟩

end Sound

def Keeps (f f' : Forest Node Owner) (owner : Owner) : Prop :=
  ∀ node, f.OnChain owner node → f'.OnChain owner node

theorem Keeps.refl (f : Forest Node Owner) (owner : Owner) : Keeps f f owner :=
  fun _ chain => chain

theorem Keeps.trans {f' f'' : Forest Node Owner} (first : Keeps f f' owner)
    (second : Keeps f' f'' owner) : Keeps f f'' owner :=
  fun node chain => second node (first node chain)

theorem keeps_of_links {f' : Forest Node Owner} (root : f'.root owner = f.root owner)
    (stays : ∀ top, f.root owner = some top → f.ended top = false → f'.ended top = false)
    (links : ∀ parent child, f.OnChain owner parent → f.Waits parent child →
      f'.Waits parent child) : Keeps f f' owner := by
  rintro node ⟨top, rooted, live, path⟩
  refine ⟨top, root.trans rooted, stays top rooted live, ?_⟩
  induction path with
  | refl => exact .refl
  | tail path last ih =>
      exact ih.tail (links _ _ ⟨top, rooted, live, path⟩ last)

section Edits

variable [DecidableEq Node]

def link (f : Forest Node Owner) (parent child : Node) : Forest Node Owner :=
  { f with
    awaiting := update f.awaiting parent (some child)
    waiter := update f.waiter child (some parent) }

def finish (f : Forest Node Owner) (node : Node) : Forest Node Owner :=
  { f with ended := update f.ended node true }

def release (f : Forest Node Owner) (parent : Node) : Forest Node Owner :=
  { f with awaiting := update f.awaiting parent none }

namespace Sound

variable (sound : f.Sound)

include sound

theorem link (live : f.ended child = false) (loose : ¬f.IsRoot child)
    (alone : ∀ p, f.Waits p child → p = parent)
    (idle : f.awaiting parent = none ∨ f.awaiting parent = some child) :
    (f.link parent child).Sound ∧ ∀ owner, Keeps f (f.link parent child) owner := by
  refine ⟨⟨?_, sound.roots, ?_⟩, fun owner => ?_⟩
  · rintro p c ⟨pLive, awaits⟩
    by_cases own : p = parent
    · subst own
      obtain rfl : child = c := by simpa [Forest.link] using awaits
      exact ⟨live, by simp [Forest.link], loose⟩
    · have waits : f.Waits p c := ⟨pLive, by simpa [Forest.link, own] using awaits⟩
      obtain ⟨cLive, waiter, notRoot⟩ := sound.waits waits
      have other : c ≠ child := fun same => own (alone p (same ▸ waits))
      exact ⟨cLive, by simpa [Forest.link, other] using waiter, notRoot⟩
  · intro node root
    have other : node ≠ child := fun same => loose (same ▸ root)
    simpa [Forest.link, other] using sound.tops root
  · refine keeps_of_links rfl (fun _ _ live => live) fun p c _ waits => ⟨waits.1, ?_⟩
    by_cases own : p = parent
    · subst own
      rcases idle with none | same
      · cases none.symm.trans waits.2
      · have onlyChild := waits.2.symm.trans same
        simp [Forest.link, onlyChild]
    · simpa [Forest.link, own] using waits.2

theorem finish (chain : f.OnChain owner node) (nobody : ∀ p, ¬f.Waits p node) :
    (f.finish node).Sound ∧
      ∀ owner', owner' ≠ owner → Keeps f (f.finish node) owner' := by
  have before {p c : Node} (waits : (f.finish node).Waits p c) : f.Waits p c := by
    refine ⟨?_, waits.2⟩
    by_contra isOver
    have ended : (f.finish node).ended p = true := by
      by_cases same : p = node
      · simp [Forest.finish, same]
      · simpa [Forest.finish, same] using isOver
    rw [waits.1] at ended
    cases ended
  have stays {c : Node} (other : c ≠ node) (live : f.ended c = false) :
      (f.finish node).ended c = false := by
    simpa [Forest.finish, other] using live
  refine ⟨⟨?_, sound.roots, sound.tops⟩, fun owner' other => ?_⟩
  · intro p c waits
    obtain ⟨live, rest⟩ := sound.waits (before waits)
    exact ⟨stays (fun same => nobody p (same ▸ before waits)) live, rest⟩
  · have apart {c : Node} (chain' : f.OnChain owner' c) : c ≠ node := by
      intro same
      subst same
      exact other (sound.disjoint chain' chain)
    refine keeps_of_links rfl (fun top root live => stays (apart (.top root live)) live) ?_
    intro p c chain' waits
    exact ⟨stays (apart chain') waits.1, waits.2⟩

theorem resume (chain : f.OnChain owner node) (waiter : f.waiter node = some parent) :
    ((f.finish node).release parent).Sound ∧
      ∀ owner', owner' ≠ owner → Keeps f ((f.finish node).release parent) owner' := by
  have before {p c : Node} (waits : ((f.finish node).release parent).Waits p c) :
      f.Waits p c ∧ p ≠ parent := by
    obtain ⟨live, awaits⟩ := waits
    have other : p ≠ parent := by
      rintro rfl
      simp [Forest.release] at awaits
    refine ⟨⟨?_, by simpa [Forest.release, Forest.finish, other] using awaits⟩, other⟩
    by_cases same : p = node
    · simp [Forest.release, Forest.finish, same] at live
    · simpa [Forest.release, Forest.finish, same] using live
  have stays {c : Node} (other : c ≠ node) (live : f.ended c = false) :
      ((f.finish node).release parent).ended c = false := by
    simpa [Forest.release, Forest.finish, other] using live
  refine ⟨⟨?_, sound.roots, sound.tops⟩, fun owner' other => ?_⟩
  · intro p c waits
    obtain ⟨old, notParent⟩ := before waits
    obtain ⟨live, waits', notRoot⟩ := sound.waits old
    refine ⟨stays ?_ live, waits', notRoot⟩
    rintro rfl
    exact notParent (Option.some.inj (waits'.symm.trans waiter))
  · have apart {c : Node} (chain' : f.OnChain owner' c) : c ≠ node ∧ c ≠ parent := by
      constructor
      · rintro rfl
        exact other (sound.disjoint chain' chain)
      · rintro rfl
        exact other (sound.disjoint chain' (sound.waited chain waiter).1)
    refine keeps_of_links rfl
      (fun top root live => stays (apart (.top root live)).1 live) ?_
    intro p c chain' waits
    refine ⟨stays (apart chain').1 waits.1, ?_⟩
    simpa [Forest.release, Forest.finish, (apart chain').2] using waits.2

end Sound

end Edits

section Roots

variable [DecidableEq Owner]

def plant (f : Forest Node Owner) (owner : Owner) (node : Node) : Forest Node Owner :=
  { f with root := update f.root owner (some node) }

def uproot (f : Forest Node Owner) (owner : Owner) : Forest Node Owner :=
  { f with root := update f.root owner none }

namespace Sound

variable (sound : f.Sound)

include sound

theorem plant (owner : Owner) (loose : ¬f.IsRoot node) (free : f.waiter node = none)
    (nobody : ∀ p, ¬f.Waits p node) :
    (f.plant owner node).Sound ∧
      ∀ owner', owner' ≠ owner → Keeps f (f.plant owner node) owner' := by
  have rooted {o : Owner} {c : Node} (root : (f.plant owner node).root o = some c) :
      (o = owner ∧ c = node) ∨ (o ≠ owner ∧ f.root o = some c) := by
    by_cases same : o = owner
    · subst same
      simp [Forest.plant] at root
      exact .inl ⟨rfl, root.symm⟩
    · exact .inr ⟨same, by simpa [Forest.plant, same] using root⟩
  refine ⟨⟨?_, ?_, ?_⟩, fun owner' other => ?_⟩
  · intro p c waits
    obtain ⟨live, waiter, notRoot⟩ := sound.waits (show f.Waits p c from waits)
    refine ⟨live, waiter, ?_⟩
    rintro ⟨o, root⟩
    rcases rooted root with ⟨_, rfl⟩ | ⟨_, old⟩
    · exact nobody p waits
    · exact notRoot ⟨o, old⟩
  · intro o o' c first second
    rcases rooted first with ⟨rfl, rfl⟩ | ⟨_, old⟩
    · rcases rooted second with ⟨rfl, _⟩ | ⟨_, old'⟩
      · rfl
      · exact absurd ⟨o', old'⟩ loose
    · rcases rooted second with ⟨rfl, rfl⟩ | ⟨_, old'⟩
      · exact absurd ⟨o, old⟩ loose
      · exact sound.roots old old'
  · rintro c ⟨o, root⟩
    rcases rooted root with ⟨_, rfl⟩ | ⟨_, old⟩
    · exact free
    · exact sound.tops ⟨o, old⟩
  · refine keeps_of_links ?_ (fun _ _ live => live) fun _ _ _ waits => waits
    simp [Forest.plant, other]

theorem uproot (isOver : ∀ top, f.root owner = some top → f.ended top = true) :
    (f.uproot owner).Sound ∧ ∀ owner', Keeps f (f.uproot owner) owner' := by
  have rooted {o : Owner} {c : Node} (root : (f.uproot owner).root o = some c) :
      f.root o = some c := by
    by_cases same : o = owner
    · simp [Forest.uproot, same] at root
    · simpa [Forest.uproot, same] using root
  refine ⟨⟨?_, ?_, ?_⟩, fun owner' => ?_⟩
  · intro p c waits
    obtain ⟨live, waiter, notRoot⟩ := sound.waits (show f.Waits p c from waits)
    exact ⟨live, waiter, fun ⟨o, root⟩ => notRoot ⟨o, rooted root⟩⟩
  · exact fun first second => sound.roots (rooted first) (rooted second)
  · exact fun ⟨o, root⟩ => sound.tops ⟨o, rooted root⟩
  · rintro c ⟨top, root, live, path⟩
    have other : owner' ≠ owner := by
      rintro rfl
      rw [isOver top root] at live
      cases live
    exact ⟨top, by simpa [Forest.uproot, other] using root, live, path⟩

end Sound

end Roots

end Forest

end Metal.Lib
