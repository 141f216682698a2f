import Mathlib.Data.List.Basic
import Mathlib.Data.Set.Basic
import Mathlib.Logic.Relation

/-!
# Graphs of names

A graph says where a name leads from a node: to another node, of some kind.  Nodes from which no name
leads anywhere need no mention, and nothing keeps a graph from having cycles.

* `walk` — where a path of names leads.
* `link`, `unlink` — one name more, one name less.
* `walk_mono` — more names keep the paths there were.
* `Unnamed`, `walk_eq_of_unnamed` — a node that no name leads to does not matter to a walk.
* `walk_unlink_leaf` — a name that leads to a leaf matters only to the paths that end in it.
* `Below`, `Tree` — nodes of one kind have one name each, and none is below itself.
* `Tree.mono`, `Tree.link_special`, `Tree.link_leaf` — what keeps a tree.
-/

namespace NameGraph

variable {Node Name Kind : Type*}

/-- Where the names at each node lead, and to what kind of node. -/
abbrev Graph (Node Name Kind : Type*) := Node → Name → Option (Node × Kind)

/-- A path from a node; `found` is what the names before it have led to. -/
def walkFrom (g : Graph Node Name Kind) :
    Option (Node × Kind) → Node → List Name → Option (Node × Kind)
  | found, _, [] => found
  | _, n, name :: rest =>
    match g n name with
    | none => none
    | some b => walkFrom g (some b) b.1 rest

/-- Where a path leads from a node.  The empty path leads nowhere. -/
def walk (g : Graph Node Name Kind) (n : Node) (path : List Name) : Option (Node × Kind) :=
  walkFrom g none n path

section Walks

variable {g g' : Graph Node Name Kind} {n : Node} {path : List Name} {name : Name} {b : Node × Kind}

@[simp] theorem walkFrom_nil (found : Option (Node × Kind)) (n : Node) :
    walkFrom g found n [] = found := rfl

@[simp] theorem walk_singleton (n : Node) (name : Name) : walk g n [name] = g n name := by
  rw [walk, walkFrom]
  cases g n name <;> rfl

theorem walkFrom_concat (hpath : path ≠ []) (found : Option (Node × Kind)) (n : Node) (name : Name) :
    walkFrom g found n (path ++ [name]) = (walkFrom g found n path).bind fun b => g b.1 name := by
  induction path generalizing found n with
  | nil => exact absurd rfl hpath
  | cons first rest ih =>
    rw [List.cons_append, walkFrom, walkFrom]
    cases hfirst : g n first with
    | none => rfl
    | some b =>
      cases rest with
      | nil =>
        simp only [List.nil_append, walkFrom, Option.bind_some]
        cases g b.1 name <;> rfl
      | cons second rest => exact ih (List.cons_ne_nil _ _) (some b) b.1

/-- The last name of a path. -/
theorem walk_concat (hpath : path ≠ []) (n : Node) (name : Name) :
    walk g n (path ++ [name]) = (walk g n path).bind fun b => g b.1 name :=
  walkFrom_concat hpath none n name

theorem exists_name_of_walkFrom {found : Option (Node × Kind)} (h : walkFrom g found n path = some b) :
    found = some b ∨ ∃ m name, g m name = some b := by
  induction path generalizing found n with
  | nil => exact .inl h
  | cons first rest ih =>
    rw [walkFrom] at h
    cases hfirst : g n first with
    | none =>
      rw [hfirst] at h
      cases h
    | some b' =>
      rw [hfirst] at h
      rcases ih h with heq | hname
      · exact .inr ⟨n, first, hfirst.trans heq⟩
      · exact .inr hname

/-- What a path leads to has a name. -/
theorem exists_name_of_walk (h : walk g n path = some b) : ∃ m name, g m name = some b :=
  (exists_name_of_walkFrom h).resolve_left (by simp)

theorem walkFrom_mono (hsub : ∀ m name b, g m name = some b → g' m name = some b)
    {found : Option (Node × Kind)} (h : walkFrom g found n path = some b) :
    walkFrom g' found n path = some b := by
  induction path generalizing found n with
  | nil => exact h
  | cons first rest ih =>
    rw [walkFrom] at h ⊢
    cases hfirst : g n first with
    | none =>
      rw [hfirst] at h
      cases h
    | some b' =>
      rw [hfirst] at h
      rw [hsub n first b' hfirst]
      exact ih h

/-- **More names keep the paths there were.** -/
theorem walk_mono (hsub : ∀ m name b, g m name = some b → g' m name = some b)
    (h : walk g n path = some b) : walk g' n path = some b :=
  walkFrom_mono hsub h

/-- No name leads to the node. -/
def Unnamed (g : Graph Node Name Kind) (n : Node) : Prop := ∀ m name b, g m name = some b → b.1 ≠ n

theorem walkFrom_eq_of_unnamed {m : Node} (hm : Unnamed g m) (hsame : ∀ n, n ≠ m → g' n = g n)
    (hn : n ≠ m) (found : Option (Node × Kind)) (path : List Name) :
    walkFrom g' found n path = walkFrom g found n path := by
  induction path generalizing found n with
  | nil => rfl
  | cons first rest ih =>
    rw [walkFrom, walkFrom, hsame n hn]
    cases hfirst : g n first with
    | none => rfl
    | some b => exact ih (hm n first b hfirst) (some b)

/-- **A node that no name leads to does not matter** to the walks from elsewhere. -/
theorem walk_eq_of_unnamed {m : Node} (hm : Unnamed g m) (hsame : ∀ n, n ≠ m → g' n = g n)
    (hn : n ≠ m) (path : List Name) : walk g' n path = walk g n path :=
  walkFrom_eq_of_unnamed hm hsame hn none path

end Walks

/-! ## One name more, one name less -/

section Updates

variable [DecidableEq Node] [DecidableEq Name] {g : Graph Node Name Kind} {p n : Node}
  {name other : Name} {b : Node × Kind}

/-- The name leads to `b`. -/
def link (g : Graph Node Name Kind) (p : Node) (name : Name) (b : Node × Kind) :
    Graph Node Name Kind :=
  fun n other => if n = p ∧ other = name then some b else g n other

/-- The name leads nowhere. -/
def unlink (g : Graph Node Name Kind) (p : Node) (name : Name) : Graph Node Name Kind :=
  fun n other => if n = p ∧ other = name then none else g n other

@[simp] theorem link_self : link g p name b p name = some b := if_pos ⟨rfl, rfl⟩

theorem link_of_ne (h : ¬ (n = p ∧ other = name)) : link g p name b n other = g n other := if_neg h

@[simp] theorem unlink_self : unlink g p name p name = none := if_pos ⟨rfl, rfl⟩

theorem unlink_of_ne (h : ¬ (n = p ∧ other = name)) : unlink g p name n other = g n other := if_neg h

theorem link_eq_some {c : Node × Kind} :
    link g p name b n other = some c ↔
      ((n = p ∧ other = name) ∧ c = b) ∨ (¬ (n = p ∧ other = name) ∧ g n other = some c) := by
  unfold link
  split
  · simp_all [eq_comm]
  · simp_all

theorem unlink_eq_some {c : Node × Kind} :
    unlink g p name n other = some c ↔ ¬ (n = p ∧ other = name) ∧ g n other = some c := by
  unfold unlink
  split <;> simp_all

/-- A name that is taken away again was never there. -/
theorem unlink_link (h : g p name = none) : unlink (link g p name b) p name = g := by
  funext n other
  unfold unlink link
  split
  · rename_i heq
    rw [heq.1, heq.2, h]
  · rfl

theorem link_mono (hfresh : g p name = none) (m : Node) (x : Name) (c : Node × Kind)
    (h : g m x = some c) : link g p name b m x = some c := by
  rw [link_of_ne, h]
  rintro ⟨rfl, rfl⟩
  rw [hfresh] at h
  cases h

theorem walkFrom_unlink_leaf (hname : g p name = some b) (hleaf : ∀ x, g b.1 x = none)
    {path : List Name} (hlast : path.getLast? ≠ some name) (found : Option (Node × Kind)) (n : Node) :
    walkFrom (unlink g p name) found n path = walkFrom g found n path := by
  induction path generalizing found n with
  | nil => rfl
  | cons first rest ih =>
    rw [walkFrom, walkFrom]
    by_cases hhit : n = p ∧ first = name
    · obtain ⟨rfl, rfl⟩ := hhit
      -- the path goes on behind the leaf, so it leads nowhere in both graphs
      cases rest with
      | nil => exact absurd rfl hlast
      | cons second rest =>
        rw [unlink_self, hname]
        dsimp only
        rw [walkFrom, hleaf second]
    · rw [unlink_of_ne hhit]
      cases hfirst : g n first with
      | none => rfl
      | some c =>
        refine ih (fun hrest => hlast ?_) (some c) c.1
        have hne : rest ≠ [] := by
          rintro rfl
          cases hrest
        rw [List.getLast?_cons_of_ne_nil hne, hrest]

/-- **A name that leads to a leaf** matters only to the paths that end in it. -/
theorem walk_unlink_leaf (hname : g p name = some b) (hleaf : ∀ x, g b.1 x = none) {path : List Name}
    (hlast : path.getLast? ≠ some name) (n : Node) :
    walk (unlink g p name) n path = walk g n path :=
  walkFrom_unlink_leaf hname hleaf hlast none n

end Updates

/-! ## Trees -/

/-- A plain name leads from `p` to the inner node `n`: not a name like `..`, which leads back. -/
def Below (g : Graph Node Name Kind) (special : Set Name) (inner : Kind) (p n : Node) : Prop :=
  ∃ name, name ∉ special ∧ g p name = some (n, inner)

/-- The inner nodes have one plain name each, the root has none, and no node is below itself. -/
structure Tree (g : Graph Node Name Kind) (special : Set Name) (inner : Kind) (root : Node) :
    Prop where
  root : ∀ p, ¬ Below g special inner p root
  unique : ∀ {p p' name name' n}, name ∉ special → name' ∉ special → g p name = some (n, inner) →
    g p' name' = some (n, inner) → p = p' ∧ name = name'
  acyclic : ∀ n, ¬ Relation.TransGen (Below g special inner) n n

section Trees

variable {g g' : Graph Node Name Kind} {special : Set Name} {inner : Kind} {root p n : Node}
  {name : Name} {b : Node × Kind}

/-- Fewer names keep a tree. -/
theorem Tree.mono (h : Tree g special inner root)
    (hsub : ∀ m x k, x ∉ special → g' m x = some (k, inner) → g m x = some (k, inner)) :
    Tree g' special inner root := by
  have hbelow : ∀ m k, Below g' special inner m k → Below g special inner m k := by
    rintro m k ⟨x, hx, hk⟩
    exact ⟨x, hx, hsub m x k hx hk⟩
  refine ⟨fun m hm => h.root m (hbelow m root hm), fun hx hx' hk hk' => ?_, fun m hm => ?_⟩
  · exact h.unique hx hx' (hsub _ _ _ hx hk) (hsub _ _ _ hx' hk')
  · exact h.acyclic m (Relation.TransGen.mono hbelow m m hm)

variable [DecidableEq Node] [DecidableEq Name]

/-- A special name. -/
theorem Tree.link_special (h : Tree g special inner root) (hname : name ∈ special) (p : Node)
    (b : Node × Kind) : Tree (link g p name b) special inner root :=
  h.mono fun _ _ _ hx hk => (link_eq_some.mp hk).elim
    (fun heq => absurd (heq.1.2 ▸ hname) hx) And.right

/-- **A new inner node keeps the tree** if nothing is above or below it yet. -/
theorem Tree.link_leaf (h : Tree g special inner root) (hroot : n ≠ root) (hp : n ≠ p)
    (hname : name ∉ special) (habove : ∀ m, ¬ Below g special inner m n)
    (hbelow : ∀ m, ¬ Below g special inner n m) :
    Tree (link g p name (n, inner)) special inner root := by
  have hcases : ∀ {m k}, Below (link g p name (n, inner)) special inner m k →
      (m = p ∧ k = n) ∨ Below g special inner m k := by
    rintro m k ⟨x, hx, hk⟩
    rcases link_eq_some.mp hk with ⟨⟨rfl, -⟩, heq⟩ | ⟨-, hk⟩
    · exact .inl ⟨rfl, congrArg Prod.fst heq⟩
    · exact .inr ⟨x, hx, hk⟩
  refine ⟨fun m hm => ?_, fun {m m' x x' k} hx hx' hk hk' => ?_, fun m hm => ?_⟩
  · rcases hcases hm with ⟨-, heq⟩ | hm
    · exact hroot heq.symm
    · exact h.root m hm
  · rcases link_eq_some.mp hk with ⟨⟨rfl, rfl⟩, heq⟩ | ⟨-, hold⟩
    · obtain rfl : k = n := congrArg Prod.fst heq
      rcases link_eq_some.mp hk' with ⟨⟨rfl, rfl⟩, -⟩ | ⟨-, hold'⟩
      · exact ⟨rfl, rfl⟩
      · exact absurd ⟨x', hx', hold'⟩ (habove m')
    · rcases link_eq_some.mp hk' with ⟨⟨rfl, rfl⟩, heq⟩ | ⟨-, hold'⟩
      · obtain rfl : k = n := congrArg Prod.fst heq
        exact absurd ⟨x, hx, hold⟩ (habove m)
      · exact h.unique hx hx' hold hold'
  · -- a chain that ends in the new node ends there for good, and no other chain is new
    have hchain : ∀ k, Relation.TransGen (Below (link g p name (n, inner)) special inner) m k →
        k = n ∧ m ≠ n ∨ Relation.TransGen (Below g special inner) m k := by
      intro k hk
      induction hk with
      | single hstep =>
        rcases hcases hstep with ⟨rfl, rfl⟩ | hold
        · exact .inl ⟨rfl, fun heq => hp heq.symm⟩
        · exact .inr (.single hold)
      | tail hpath hstep ih =>
        rcases hcases hstep with ⟨rfl, rfl⟩ | hold
        · rcases ih with ⟨heq, -⟩ | ih
          · exact absurd heq.symm hp
          · refine .inl ⟨rfl, ?_⟩
            rintro rfl
            obtain ⟨k, hk, -⟩ := Relation.TransGen.head'_iff.mp ih
            exact hbelow k hk
        · rcases ih with ⟨rfl, -⟩ | ih
          · exact absurd hold (hbelow _)
          · exact .inr (ih.tail hold)
    rcases hchain m hm with ⟨rfl, hne⟩ | hold
    · exact hne rfl
    · exact h.acyclic m hold

end Trees

end NameGraph
