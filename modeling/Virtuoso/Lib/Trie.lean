import Mathlib.Logic.Function.Basic

/-
  Tries of a fixed depth, whose nodes are made on demand.

  A trie is walked along a list of digits. An update makes
  the nodes that are missing on its path, and a change of a
  value that is not there does nothing.

  Main declarations:
    * `Trie.find_upsert`
    * `Trie.find_modify`
-/

/- A tree with a child for some of the digits. -/
inductive Trie (δ α : Type)
  | leaf (value : α)
  | node (children : δ → Option (Trie δ α))

namespace Trie

variable {δ α : Type}

/- The value at the end of a path. -/
def find :
    List δ → Trie δ α → Option α
| [], .leaf value => some value
| d :: path, .node children =>
    match children d with
    | none => none
    | some child => find path child
| _, _ => none

/- The new node for the rest of a path. -/
def blank (init : α) : List δ → Trie δ α
| [] => .leaf init
| _ :: _ => .node (fun _ => none)

/-
  Change the value at the end of a path, after making what
  is missing of the path.
-/
def upsert
    [DecidableEq δ]
    (init : α)
    (f : α → α) :
    List δ → Trie δ α → Trie δ α
| [], .leaf value => .leaf (f value)
| d :: path, .node children =>
    .node (Function.update children d
      (some (upsert init f path
        ((children d).getD (blank init path)))))
| _, t => t

/- Change the value at the end of a path, if there is one. -/
def modify
    [DecidableEq δ]
    (f : α → α) :
    List δ → Trie δ α → Trie δ α
| [], .leaf value => .leaf (f value)
| d :: path, .node children =>
    match children d with
    | none => .node children
    | some child =>
        .node (Function.update children d
          (some (modify f path child)))
| _, t => t

/- All leaves are at one depth. -/
def HasDepth :
    Nat → Trie δ α → Prop
| 0, .leaf _ => True
| n + 1, .node children =>
    ∀ d child, children d = some child → HasDepth n child
| _, _ => False

theorem hasDepth_blank
    (init : α)
    (path : List δ) :
    HasDepth path.length (blank init path) := by
  cases path with
  | nil => trivial
  | cons d path =>
      intro d' child hChild
      simp at hChild

/- The child that an update continues in has the depth. -/
theorem hasDepth_getD
    (init : α)
    (path : List δ)
    {child : Option (Trie δ α)}
    (hChild : ∀ t, child = some t → HasDepth path.length t) :
    HasDepth path.length (child.getD (blank init path)) := by
  cases child with
  | none => exact hasDepth_blank init path
  | some t => exact hChild t rfl

variable {t : Trie δ α}

theorem hasDepth_update
    [DecidableEq δ]
    {n : Nat}
    {children : δ → Option (Trie δ α)}
    (d : δ)
    (hNode : HasDepth (n + 1) (.node children))
    (hChild : HasDepth n t) :
    HasDepth (n + 1)
      (.node (Function.update children d (some t))) := by
  intro d' child hAt
  by_cases hEq : d' = d
  · subst hEq
    rw [Function.update_self, Option.some.injEq] at hAt
    exact hAt ▸ hChild
  · rw [Function.update_of_ne hEq] at hAt
    exact hNode d' child hAt

theorem hasDepth_upsert
    [DecidableEq δ]
    (init : α)
    (f : α → α)
    (path : List δ)
    (hDepth : HasDepth path.length t) :
    HasDepth path.length (upsert init f path t) := by
  induction path generalizing t with
  | nil =>
      cases t with
      | leaf value => trivial
      | node children => exact hDepth.elim
  | cons d path ih =>
      cases t with
      | leaf value => exact hDepth.elim
      | node children =>
          apply hasDepth_update d hDepth
          exact ih (hasDepth_getD init path (hDepth d))

theorem hasDepth_modify
    [DecidableEq δ]
    (f : α → α)
    (path : List δ)
    (hDepth : HasDepth path.length t) :
    HasDepth path.length (modify f path t) := by
  induction path generalizing t with
  | nil =>
      cases t with
      | leaf value => trivial
      | node children => exact hDepth.elim
  | cons d path ih =>
      cases t with
      | leaf value => exact hDepth.elim
      | node children =>
          cases hChild : children d with
          | none => simpa [modify, hChild] using hDepth
          | some child =>
              simp only [modify, hChild]
              exact hasDepth_update d hDepth
                (ih (hDepth d child hChild))

/- Nothing is found below a new node, but a new leaf. -/
theorem find_blank
    (init : α)
    (path other : List δ)
    (hLength : other.length = path.length) :
    find other (blank init path) =
      if path = [] then some init else none := by
  cases path with
  | nil =>
      have hNil := List.eq_nil_of_length_eq_zero hLength
      simp [hNil, blank, find]
  | cons d path =>
      cases other with
      | nil => simp at hLength
      | cons d' other => simp [blank, find]

variable {path other : List δ}

/- An update changes the value at its own path only. -/
theorem find_upsert
    [DecidableEq δ]
    (init : α)
    (f : α → α)
    (hLength : other.length = path.length)
    (hDepth : HasDepth path.length t) :
    find other (upsert init f path t) =
      if other = path then
        some (f ((find path t).getD init))
      else
        find other t := by
  induction path generalizing other t with
  | nil =>
      have hNil := List.eq_nil_of_length_eq_zero hLength
      cases t with
      | leaf value => simp [hNil, upsert, find]
      | node children => exact hDepth.elim
  | cons d path ih =>
      cases t with
      | leaf value => exact hDepth.elim
      | node children =>
          cases other with
          | nil => simp at hLength
          | cons d' other =>
              have hTail : other.length = path.length := by
                simpa using hLength
              have hNext := hasDepth_getD init path (hDepth d)
              by_cases hDigit : d' = d
              · subst hDigit
                simp only [upsert, find,
                  Function.update_self, ih hTail hNext,
                  List.cons.injEq, true_and]
                cases hChild : children d' with
                | some child => rfl
                | none =>
                    have hSelf := find_blank init path path rfl
                    have hOther :=
                      find_blank init path other hTail
                    by_cases hEq : other = path
                    · simp only [hEq, if_true,
                        Option.getD_none, hSelf]
                      by_cases hNil : path = []
                      · simp [hNil]
                      · simp [hNil]
                    · have hCons : path ≠ [] := by
                        rintro rfl
                        exact hEq
                          (List.eq_nil_of_length_eq_zero hTail)
                      simp [hEq, hOther, hCons]
              · simp [upsert, find, hDigit]

/-
  The same for a root that is made on demand, and a path that
  is not empty.
-/
theorem find_upsert_root
    [DecidableEq δ]
    (init : α)
    (f : α → α)
    (hPath : path ≠ [])
    (hLength : other.length = path.length)
    {root : Option (Trie δ α)}
    (hDepth : ∀ t, root = some t → HasDepth path.length t) :
    find other (upsert init f path (root.getD (blank init path))) =
      if other = path then
        some (f ((root.bind (find path)).getD init))
      else
        root.bind (find other) := by
  rw [find_upsert init f hLength (hasDepth_getD init path hDepth)]
  cases root with
  | some t => rfl
  | none =>
      rw [Option.getD_none, find_blank init path path rfl,
        find_blank init path other hLength, if_neg hPath]
      rfl

/- A change of a value is seen at its own path only. -/
theorem find_modify
    [DecidableEq δ]
    (f : α → α)
    (hLength : other.length = path.length)
    (t : Trie δ α) :
    find other (modify f path t) =
      if other = path then
        (find path t).map f
      else
        find other t := by
  induction path generalizing other t with
  | nil =>
      have hNil := List.eq_nil_of_length_eq_zero hLength
      cases t with
      | leaf value => simp [hNil, modify, find]
      | node children => simp [hNil, modify, find]
  | cons d path ih =>
      cases t with
      | leaf value =>
          by_cases hEq : other = d :: path
          · simp [hEq, modify, find]
          · simp [hEq, modify]
      | node children =>
          cases other with
          | nil => simp at hLength
          | cons d' other =>
              have hTail : other.length = path.length := by
                simpa using hLength
              by_cases hDigit : d' = d
              · subst hDigit
                cases hChild : children d' with
                | none => simp [modify, find, hChild]
                | some child =>
                    simp [modify, find, hChild, ih hTail]
              · cases hChild : children d with
                | none => simp [modify, find, hChild, hDigit]
                | some child =>
                    simp [modify, find, hChild, hDigit]

end Trie
