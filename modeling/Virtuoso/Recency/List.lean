import Virtuoso.Recency.Basic

/-
  The recency list of `RecencyTLBPrefetcher.cc`.

  The pointers of the nodes are those of a doubly linked
  list. Its operations are operations of the pointers alone
  while every linked page has a node, which no call takes
  away; so each call does to the list of the pages what it
  does to the pointers.

  Main declarations:
    * `RecencyPrefetcher.valid_consumePendingVictim`
    * `RecencyPrefetcher.wellFormed_run`
-/

------------------------------------------------------------
-- Lists And Their Operations
------------------------------------------------------------

namespace Virtuoso

namespace RecencyPrefetcher

/- A page without a node has no pointers. -/
def links (s : RecencyPrefetcher) : PointerList Nat where
  nil := invalidVpn
  prev := fun v =>
    ((s.nodes v).map RecencyNode.prevVpn).getD invalidVpn
  next := fun v =>
    ((s.nodes v).map RecencyNode.nextVpn).getD invalidVpn
  head := s.stackHeadVpn
  tail := s.stackTailVpn

variable {s : RecencyPrefetcher} {v w p : Nat}
variable {f : RecencyNode → RecencyNode}

theorem isSome_modifyNode :
    ((s.modifyNode v f).nodes w).isSome = (s.nodes w).isSome := by
  by_cases hEq : w = v
  · rw [hEq]
    simp [modifyNode]
  · simp [modifyNode, hEq]

/- The links after the node of one page was replaced. -/
theorem links_of_update
    {t : RecencyPrefetcher}
    {n : Option RecencyNode}
    (hNodes : t.nodes = Function.update s.nodes v n)
    (hHead : t.stackHeadVpn = s.stackHeadVpn)
    (hTail : t.stackTailVpn = s.stackTailVpn) :
    t.links =
      { s.links with
        prev := Function.update s.links.prev v
          ((n.map RecencyNode.prevVpn).getD invalidVpn)
        next := Function.update s.links.next v
          ((n.map RecencyNode.nextVpn).getD invalidVpn) } := by
  have hField : ∀ g : RecencyNode → Nat,
      (fun w => ((t.nodes w).map g).getD invalidVpn) =
        Function.update
          (fun w => ((s.nodes w).map g).getD invalidVpn) v
          ((n.map g).getD invalidVpn) := by
    intro g
    rw [hNodes]
    exact Function.comp_update
      (fun o : Option RecencyNode =>
        (o.map g).getD invalidVpn) s.nodes v n
  simp only [links, hField, hHead, hTail]

theorem links_modify :
    (s.modifyNode v f).links =
      { s.links with
        prev := Function.update s.links.prev v
          ((((s.nodes v).map f).map
            RecencyNode.prevVpn).getD invalidVpn)
        next := Function.update s.links.next v
          ((((s.nodes v).map f).map
            RecencyNode.nextVpn).getD invalidVpn) } :=
  links_of_update rfl rfl rfl

theorem links_setPrev
    (hNode : (s.nodes v).isSome) :
    (s.setPrev v p).links =
      { s.links with
        prev := Function.update s.links.prev v p } := by
  rcases Option.isSome_iff_exists.mp hNode with ⟨n, hSome⟩
  have hKeep : s.links.next v = n.nextVpn := by
    simp [links, hSome]
  rw [setPrev, links_modify, hSome]
  simp only [Option.map_some, Option.getD_some, ← hKeep,
    Function.update_eq_self]

theorem links_setNext
    (hNode : (s.nodes v).isSome) :
    (s.setNext v p).links =
      { s.links with
        next := Function.update s.links.next v p } := by
  rcases Option.isSome_iff_exists.mp hNode with ⟨n, hSome⟩
  have hKeep : s.links.prev v = n.prevVpn := by
    simp [links, hSome]
  rw [setNext, links_modify, hSome]
  simp only [Option.map_some, Option.getD_some, ← hKeep,
    Function.update_eq_self]

/- Changing anything but the pointers of a node. -/
theorem links_modifyNode
    (hPrev : ∀ n, (f n).prevVpn = n.prevVpn)
    (hNext : ∀ n, (f n).nextVpn = n.nextVpn) :
    (s.modifyNode v f).links = s.links := by
  have hKeepPrev : (((s.nodes v).map f).map
      RecencyNode.prevVpn).getD invalidVpn = s.links.prev v := by
    simp only [links, Option.map_map, Function.comp_def, hPrev]
  have hKeepNext : (((s.nodes v).map f).map
      RecencyNode.nextVpn).getD invalidVpn = s.links.next v := by
    simp only [links, Option.map_map, Function.comp_def, hNext]
  rw [links_modify, hKeepPrev, hKeepNext,
    Function.update_eq_self, Function.update_eq_self]

theorem links_createNode
    {ppn : Nat}
    (hNew : s.nodes v = none) :
    (s.createNode v ppn).links = s.links := by
  have hPrev : invalidVpn = s.links.prev v := by
    simp [links, hNew]
  have hNext : invalidVpn = s.links.next v := by
    simp [links, hNew]
  have hLinks : (s.createNode v ppn).links =
      { s.links with
        prev := Function.update s.links.prev v invalidVpn
        next := Function.update s.links.next v invalidVpn } :=
    links_of_update
      (n := some ⟨true, v, ppn, invalidVpn, invalidVpn, false⟩)
      rfl rfl rfl
  rw [hLinks,
    Function.update_eq_iff.mpr ⟨hPrev, fun _ _ => rfl⟩,
    Function.update_eq_iff.mpr ⟨hNext, fun _ _ => rfl⟩]

theorem isSome_createNode
    {ppn : Nat} :
    ((s.createNode v ppn).nodes w).isSome =
      (decide (w = v) || (s.nodes w).isSome) := by
  by_cases hEq : w = v
  · simp [createNode, hEq]
  · simp [createNode, hEq]

@[simp] theorem isSome_setPrev :
    ((s.setPrev v p).nodes w).isSome = (s.nodes w).isSome :=
  isSome_modifyNode

@[simp] theorem isSome_setNext :
    ((s.setNext v p).nodes w).isSome = (s.nodes w).isSome :=
  isSome_modifyNode

@[simp] theorem isSome_unlinkBefore
    {nx : Nat} :
    ((s.unlinkBefore p nx).nodes w).isSome =
      (s.nodes w).isSome := by
  rw [unlinkBefore]
  split_ifs
  · exact isSome_setNext
  · rfl

@[simp] theorem isSome_unlinkBehind
    {nx : Nat} :
    ((s.unlinkBehind p nx).nodes w).isSome =
      (s.nodes w).isSome := by
  rw [unlinkBehind]
  split_ifs
  · exact isSome_setPrev
  · rfl

@[simp] theorem isSome_linkHead :
    ((s.linkHead v).nodes w).isSome = (s.nodes w).isSome := by
  simp only [linkHead]
  split_ifs <;> simp

theorem links_unlinkBefore
    {nx : Nat}
    (hNode : p ≠ invalidVpn → (s.nodes p).isSome) :
    (s.unlinkBefore p nx).links =
      { s.links with
        next :=
          if p = invalidVpn then s.links.next
          else Function.update s.links.next p nx
        head :=
          if p = invalidVpn then nx else s.links.head } := by
  rw [unlinkBefore]
  by_cases hFirst : p = invalidVpn
  · simp only [hFirst, ne_eq, not_true_eq_false, if_false, if_true]
    rfl
  · rw [if_pos hFirst, if_neg hFirst, if_neg hFirst]
    exact links_setNext (hNode hFirst)

theorem links_unlinkBehind
    {nx : Nat}
    (hNode : nx ≠ invalidVpn → (s.nodes nx).isSome) :
    (s.unlinkBehind p nx).links =
      { s.links with
        prev :=
          if nx = invalidVpn then s.links.prev
          else Function.update s.links.prev nx p
        tail :=
          if nx = invalidVpn then p else s.links.tail } := by
  rw [unlinkBehind]
  by_cases hLast : nx = invalidVpn
  · simp only [hLast, ne_eq, not_true_eq_false, if_false, if_true]
    rfl
  · rw [if_pos hLast, if_neg hLast, if_neg hLast]
    exact links_setPrev (hNode hLast)

theorem links_linkHead
    (hNode : s.stackHeadVpn ≠ invalidVpn →
      (s.nodes s.stackHeadVpn).isSome) :
    (s.linkHead v).links =
      { s.links with
        prev :=
          if s.links.head = invalidVpn then s.links.prev
          else Function.update s.links.prev s.links.head v
        head := v
        tail :=
          if s.links.tail = invalidVpn then v
          else s.links.tail } := by
  have hHead : s.links.head = s.stackHeadVpn := rfl
  have hTail : s.links.tail = s.stackTailVpn := rfl
  rw [hHead, hTail]
  by_cases hFirst : s.stackHeadVpn = invalidVpn
  · simp only [linkHead, hFirst, ne_eq, not_true_eq_false,
      if_false, if_true]
    split_ifs <;> rfl
  · have hOld := links_setPrev (p := v) (hNode hFirst)
    have hKeep : (s.setPrev s.stackHeadVpn v).stackTailVpn =
        s.stackTailVpn := rfl
    rw [if_neg hFirst]
    simp only [linkHead, if_pos hFirst, ne_eq]
    rw [hKeep]
    split_ifs with hEmpty
    · exact congrArg (fun c : PointerList Nat =>
        { c with head := v, tail := v }) hOld
    · exact congrArg (fun c : PointerList Nat =>
        { c with head := v }) hOld

theorem isSome_listRemove :
    ((s.listRemove v).nodes w).isSome = (s.nodes w).isSome := by
  cases hNode : s.getNode v with
  | none => simp [listRemove, hNode]
  | some n => simp [listRemove, hNode]

theorem isSome_listPushFront :
    ((s.listPushFront v).nodes w).isSome = (s.nodes w).isSome := by
  cases hNode : s.getNode v with
  | none => simp [listPushFront, hNode]
  | some n => simp [listPushFront, hNode]

/- Unlinking a node, whose neighbours have nodes as well. -/
theorem links_listRemove
    (hNode : (s.nodes v).isSome)
    (hPrev : s.links.prev v ≠ invalidVpn →
      (s.nodes (s.links.prev v)).isSome)
    (hNext : s.links.next v ≠ invalidVpn →
      (s.nodes (s.links.next v)).isSome) :
    (s.listRemove v).links = s.links.remove v := by
  rcases Option.isSome_iff_exists.mp hNode with ⟨n, hSome⟩
  have hGet : s.getNode v = some n := hSome
  have hP : s.links.prev v = n.prevVpn := by
    simp [links, hSome]
  have hN : s.links.next v = n.nextVpn := by
    simp [links, hSome]
  rw [hP] at hPrev
  rw [hN] at hNext
  simp only [listRemove, hGet]
  rw [links_setNext (by simp [hNode]),
    links_setPrev (by simp [hNode]),
    links_unlinkBehind (by simpa using hNext),
    links_unlinkBefore hPrev, PointerList.remove, hP, hN]
  rfl

/- Linking a node before the head, which has a node. -/
theorem links_listPushFront
    (hNode : (s.nodes v).isSome)
    (hHead : s.stackHeadVpn ≠ invalidVpn →
      (s.nodes s.stackHeadVpn).isSome) :
    (s.listPushFront v).links = s.links.pushFront v := by
  rcases Option.isSome_iff_exists.mp hNode with ⟨n, hSome⟩
  have hGet : s.getNode v = some n := hSome
  simp only [listPushFront, hGet]
  rw [links_linkHead, links_setNext (by simp [hNode]),
    links_setPrev (by simp [hNode])]
  · rfl
  · intro hOld
    rw [isSome_setNext, isSome_setPrev]
    exact hHead hOld

@[simp] theorem pendingVictimVpn_listRemove :
    (s.listRemove v).pendingVictimVpn = s.pendingVictimVpn := by
  cases hNode : s.getNode v with
  | none => simp [listRemove, hNode]
  | some n =>
      simp only [listRemove, hNode, setPrev, setNext,
        modifyNode, unlinkBefore, unlinkBehind]
      split_ifs <;> rfl

/-
  The pointers form this list of pages with nodes, and the
  pending victim, if there is one, has a node.
-/
structure Valid
    (s : RecencyPrefetcher)
    (l : List Nat) : Prop where
  represents : s.links.Represents l
  known : ∀ v ∈ l, (s.nodes v).isSome
  pending : s.pendingVictimVpn ≠ invalidVpn →
    (s.nodes s.pendingVictimVpn).isSome

variable {l : List Nat}

/- Nodes may be added and change in all but the pointers. -/
theorem Valid.of_links
    {s' : RecencyPrefetcher}
    (hValid : s.Valid l)
    (hLinks : s'.links = s.links)
    (hNodes : ∀ v, (s.nodes v).isSome → (s'.nodes v).isSome)
    (hPending : s'.pendingVictimVpn ≠ invalidVpn →
      (s'.nodes s'.pendingVictimVpn).isSome) :
    s'.Valid l where
  represents := hLinks ▸ hValid.represents
  known := fun v hMem => hNodes v (hValid.known v hMem)
  pending := hPending

theorem Valid.listContains_iff
    (hValid : s.Valid l)
    (hSome : v ≠ invalidVpn) :
    s.listContains v = true ↔ v ∈ l := by
  rw [← hValid.represents.linked_iff hSome]
  cases hNode : s.nodes v with
  | none =>
      have hOut : v ∉ l := by
        intro hMem
        have hKnown := hValid.known v hMem
        simp [hNode] at hKnown
      rw [hValid.represents.linked_iff hSome]
      simp [listContains, hNode, hOut]
  | some n =>
      simp [listContains, hNode, links, or_assoc]

/- The node of the first page. -/
theorem Valid.head_known
    (hValid : s.Valid l)
    (hSome : s.stackHeadVpn ≠ invalidVpn) :
    (s.nodes s.stackHeadVpn).isSome := by
  have hHead : s.stackHeadVpn = l.headD invalidVpn :=
    hValid.represents.head_eq
  cases l with
  | nil => exact absurd hHead hSome
  | cons w l =>
      rw [hHead]
      exact hValid.known w (by simp)

theorem valid_listRemove
    (hValid : s.Valid l)
    (hMem : v ∈ l) :
    (s.listRemove v).Valid (l.erase v) where
  represents := by
    rw [links_listRemove (hValid.known v hMem)]
    · exact PointerList.represents_remove hValid.represents hMem
    · intro hInner
      apply hValid.known
      exact (hValid.represents.next_prev hMem hInner).1
    · intro hInner
      apply hValid.known
      exact (hValid.represents.prev_next hMem hInner).1
  known := by
    intro w hLeft
    rw [isSome_listRemove]
    exact hValid.known w (List.mem_of_mem_erase hLeft)
  pending := by
    rw [pendingVictimVpn_listRemove, isSome_listRemove]
    exact hValid.pending

/-
  The value of no page has a node only if a shift of zero
  makes it the number of a page. Without links it seems to be
  an end of the empty list, and is taken out of it in vain.
-/
theorem valid_listRemove_invalid
    (hValid : s.Valid l)
    (hContains : s.listContains invalidVpn = true) :
    (s.listRemove invalidVpn).Valid l := by
  have hNode : (s.nodes invalidVpn).isSome := by
    cases hNode : s.nodes invalidVpn with
    | none => simp [listContains, hNode] at hContains
    | some n => rfl
  rcases hValid.represents.unlinked invalidVpn
      hValid.represents.nil_not_mem with ⟨hPrev, hNext⟩
  have hEnd : s.links.head = s.links.nil ∨
      s.links.tail = s.links.nil := by
    rcases Option.isSome_iff_exists.mp hNode with ⟨n, hSome⟩
    have hLink : n.prevVpn = invalidVpn := by
      simpa [links, hSome] using hPrev
    simpa [listContains, hSome, hLink, links,
      eq_comm (a := invalidVpn)] using hContains
  rcases hValid.represents.eq_nil hEnd with ⟨-, hHead, hTail⟩
  have hLinks : (s.listRemove invalidVpn).links = s.links := by
    rw [links_listRemove hNode (absurd hPrev) (absurd hNext)]
    exact PointerList.remove_of_unlinked hPrev hNext hHead hTail
  refine hValid.of_links hLinks ?_ ?_
  · intro v hKnown
    rwa [isSome_listRemove]
  · rw [pendingVictimVpn_listRemove, isSome_listRemove]
    exact hValid.pending

theorem valid_listPushFront
    (hValid : s.Valid l)
    (hNode : (s.nodes v).isSome)
    (hNew : v ∉ l)
    (hSome : v ≠ invalidVpn) :
    (s.listPushFront v).links.Represents (v :: l) ∧
      ∀ w ∈ v :: l, ((s.listPushFront v).nodes w).isSome := by
  constructor
  · rw [links_listPushFront hNode hValid.head_known]
    exact PointerList.represents_pushFront hValid.represents
      hNew hSome
  · intro w hMem
    rw [isSome_listPushFront]
    rcases List.mem_cons.mp hMem with hEq | hOld
    · exact hEq ▸ hNode
    · exact hValid.known w hOld

------------------------------------------------------------
-- Calls And Runs
------------------------------------------------------------

/- Any page may be asked to be taken out. -/
theorem valid_remove_if
    (hValid : s.Valid l) :
    (if s.listContains v then s.listRemove v
      else s).Valid (l.erase v) := by
  by_cases hSome : v = invalidVpn
  · have hOut : l.erase v = l := List.erase_of_not_mem
      (hSome ▸ hValid.represents.nil_not_mem)
    rw [hOut, hSome]
    split_ifs with hContains
    · exact valid_listRemove_invalid hValid hContains
    · exact hValid
  · split_ifs with hContains
    · exact valid_listRemove hValid
        ((hValid.listContains_iff hSome).mp hContains)
    · have hOut : v ∉ l := fun hMem => hContains
        ((hValid.listContains_iff hSome).mpr hMem)
      rw [List.erase_of_not_mem hOut]
      exact hValid

/- The list after the pending victim is linked. -/
def consume (pending : Nat) (l : List Nat) : List Nat :=
  if pending = invalidVpn then l
  else pending :: l.erase pending

theorem valid_consumePendingVictim
    (hValid : s.Valid l) :
    s.consumePendingVictim.Valid
      (consume s.pendingVictimVpn l) := by
  by_cases hNone : s.pendingVictimVpn = invalidVpn
  · simp only [consumePendingVictim, consume, if_pos hNone]
    exact hValid
  · have hNode := hValid.pending hNone
    rcases Option.isSome_iff_exists.mp hNode with ⟨n, hGet⟩
    have hGet' : s.getNode s.pendingVictimVpn = some n := hGet
    have hMarked :
        (s.setInTlb s.pendingVictimVpn false).Valid l := by
      refine hValid.of_links
        (links_modifyNode (fun _ => rfl) fun _ => rfl) ?_ ?_
      · intro v hKnown
        rwa [setInTlb, isSome_modifyNode]
      · intro hSome
        rw [setInTlb, isSome_modifyNode]
        exact hValid.pending hSome
    have hRemoved := valid_remove_if
      (v := s.pendingVictimVpn) hMarked
    have hKnown : ∀ t : RecencyPrefetcher,
        (t.nodes s.pendingVictimVpn).isSome →
        ((if t.listContains s.pendingVictimVpn then
            t.listRemove s.pendingVictimVpn
          else t).nodes s.pendingVictimVpn).isSome := by
      intro t hSome
      split_ifs
      · rwa [isSome_listRemove]
      · exact hSome
    have hNew : s.pendingVictimVpn ∉ l.erase s.pendingVictimVpn :=
      hValid.represents.nodup.not_mem_erase
    rcases valid_listPushFront hRemoved
        (hKnown _ (by rwa [setInTlb, isSome_modifyNode])) hNew
        hNone with ⟨hRep, hNodes⟩
    simp only [consumePendingVictim, consume, if_neg hNone, hGet']
    exact ⟨hRep, hNodes, absurd rfl⟩

@[simp] theorem pendingVictimVpn_consumePendingVictim :
    s.consumePendingVictim.pendingVictimVpn = invalidVpn := by
  rw [consumePendingVictim]
  split_ifs with hNone
  · exact hNone
  · rfl

theorem valid_onTranslationInstalledIntoTlb
    (hValid : s.Valid l) :
    (s.onTranslationInstalledIntoTlb v).Valid (l.erase v) := by
  have hRemoved := valid_remove_if (v := v) hValid
  refine hRemoved.of_links
    (links_modifyNode (fun _ => rfl) fun _ => rfl) ?_ ?_
  · intro w hKnown
    rwa [onTranslationInstalledIntoTlb, setInTlb, isSome_modifyNode]
  · intro hSome
    rw [onTranslationInstalledIntoTlb, setInTlb, isSome_modifyNode]
    exact hRemoved.pending hSome

/- The victim has a node from then on. -/
theorem valid_notifyVictim
    (address pageSize ppn : Nat)
    (hValid : s.Valid l) :
    (s.notifyVictim address pageSize ppn).Valid l := by
  cases hNode : s.nodes (s.vpnOf address) with
  | none =>
      have hEq : s.notifyVictim address pageSize ppn =
          { s.createNode (s.vpnOf address) ppn with
            pendingVictimVpn := s.vpnOf address } := by
        simp only [notifyVictim, hNode]
      rw [hEq]
      refine hValid.of_links (links_createNode hNode) ?_ ?_
      · intro w hKnown
        change ((s.createNode _ ppn).nodes w).isSome
        simp [isSome_createNode, hKnown]
      · intro _
        change ((s.createNode _ ppn).nodes _).isSome
        simp [isSome_createNode]
  | some n =>
      have hEq : s.notifyVictim address pageSize ppn =
          { s.modifyNode (s.vpnOf address)
              (fun n => { n with ppn := ppn }) with
            pendingVictimVpn := s.vpnOf address } := by
        simp only [notifyVictim, hNode]
      rw [hEq]
      refine hValid.of_links
        (links_modifyNode (fun _ => rfl) fun _ => rfl) ?_ ?_
      · intro w hKnown
        change ((s.modifyNode _ _).nodes w).isSome
        rwa [isSome_modifyNode]
      · intro _
        change ((s.modifyNode _ _).nodes _).isSome
        rw [isSome_modifyNode, hNode]
        rfl

theorem valid_getOrCreateNode
    {pt : RecencyLookups}
    {s' : RecencyPrefetcher}
    (hValid : s.Valid l)
    (hNode : s.getOrCreateNode pt v = some s') :
    s'.Valid l ∧ (s'.nodes v).isSome ∧
      s'.pendingVictimVpn = s.pendingVictimVpn ∧
      s'.config = s.config := by
  cases hOld : s.nodes v with
  | some n =>
      simp only [getOrCreateNode, hOld, Option.some.injEq] at hNode
      subst hNode
      exact ⟨hValid, by simp [hOld], rfl, rfl⟩
  | none =>
      cases hWalk : pt.directWalk v with
      | none => simp [getOrCreateNode, hOld, hWalk] at hNode
      | some answer =>
          rcases answer with ⟨ppn, pageSize⟩
          simp only [getOrCreateNode, hOld, hWalk] at hNode
          split_ifs at hNode
          rw [Option.some.injEq] at hNode
          subst hNode
          refine ⟨hValid.of_links (links_createNode hOld) ?_ ?_,
            by simp [isSome_createNode], rfl, rfl⟩
          · intro w hKnown
            simp [isSome_createNode, hKnown]
          · intro hSome
            rw [isSome_createNode]
            have hKnown := hValid.pending hSome
            simp only [Bool.or_eq_true]
            exact Or.inr hKnown

/- A candidate changes only which pages were predicted. -/
theorem issuePredictionCandidate_eq
    (pt : RecencyLookups)
    (v : Nat)
    (enabled : Bool)
    (out : RecencyPrefetcher × List RecencyEntry) :
    ∃ recent result,
      (if enabled then issuePredictionCandidate pt v out
        else out) =
        ({ out.1 with recentlyPredicted := recent }, result) := by
  rcases out with ⟨s, result⟩
  have hKeep : ∃ recent result',
      (s, result) =
        ({ s with recentlyPredicted := recent }, result') :=
    ⟨s.recentlyPredicted, result, rfl⟩
  cases enabled with
  | false => exact hKeep
  | true =>
      rw [if_pos rfl]
      cases hPredict : s.predict pt v with
      | none =>
          simp only [issuePredictionCandidate, hPredict, ite_self]
          exact hKeep
      | some q =>
          simp only [issuePredictionCandidate, hPredict]
          split_ifs
          · exact hKeep
          · exact hKeep
          · exact hKeep
          · exact ⟨_, _, rfl⟩
          · exact ⟨_, _, rfl⟩

theorem issuePredictions_eq
    (pt : RecencyLookups)
    (neighbors : Nat × Nat × Nat)
    (s : RecencyPrefetcher) :
    ∃ recent result,
      issuePredictions pt neighbors s =
        ({ s with recentlyPredicted := recent }, result) := by
  rcases neighbors with ⟨same, minus1, plus1⟩
  simp only [issuePredictions]
  rcases issuePredictionCandidate_eq pt same
      s.config.prefetchSameRecency (s, []) with
    ⟨recent, result, hFirst⟩
  rw [hFirst]
  rcases issuePredictionCandidate_eq pt minus1
      s.config.prefetchRecencyMinus1
      ({ s with recentlyPredicted := recent }, result) with
    ⟨recent', result', hSecond⟩
  rw [hSecond]
  exact issuePredictionCandidate_eq pt plus1 _ _

/- What a demand leaves, apart from its predictions. -/
theorem demand_eq
    (s : RecencyPrefetcher)
    (pt : RecencyLookups)
    (v : Nat) :
    ∃ recent,
      (s.demand pt v).1 =
        { s.consumePendingVictim.onTranslationInstalledIntoTlb
            v with recentlyPredicted := recent } := by
  simp only [demand]
  split_ifs
  · exact ⟨_, rfl⟩
  · rcases issuePredictions_eq pt
        (s.consumePendingVictim.capturePredictionNeighbors v)
        (s.consumePendingVictim.onTranslationInstalledIntoTlb
          v) with
      ⟨recent, result, hEq⟩
    exact ⟨recent, congrArg Prod.fst hEq⟩

theorem pendingVictimVpn_demand
    (s : RecencyPrefetcher)
    (pt : RecencyLookups)
    (v : Nat) :
    (s.demand pt v).1.pendingVictimVpn = invalidVpn := by
  rcases demand_eq s pt v with ⟨recent, hEq⟩
  rw [hEq]
  simp only [onTranslationInstalledIntoTlb, setInTlb, modifyNode]
  split_ifs <;> simp

theorem valid_demand
    {pt : RecencyLookups}
    (hValid : s.Valid l) :
    (s.demand pt v).1.Valid
      ((consume s.pendingVictimVpn l).erase v) := by
  rcases demand_eq s pt v with ⟨recent, hEq⟩
  rw [hEq]
  have hInstalled := valid_onTranslationInstalledIntoTlb
    (v := v) (valid_consumePendingVictim hValid)
  exact hInstalled.of_links rfl (fun _ hKnown => hKnown)
    hInstalled.pending

/- The page that a call demands of the recency list. -/
def processes (s : RecencyPrefetcher) : Request → Option Nat
| .notifyVictim _ _ _ => none
| .performPrefetch _ none _ => none
| .performPrefetch address (some pt) tlbHit =>
    if tlbHit && !s.config.prefetchOnTlbHit then none
    else
      (s.getOrCreateNode pt (s.vpnOf address)).map
        (fun _ => s.vpnOf address)

/- What a call does to the list. -/
def listAfter
    (s : RecencyPrefetcher)
    (l : List Nat)
    (request : Request) : List Nat :=
  match s.processes request with
  | none => l
  | some v => (consume s.pendingVictimVpn l).erase v

theorem step_performPrefetch
    (s : RecencyPrefetcher)
    (address : Nat)
    (pt : Option RecencyLookups)
    (tlbHit : Bool) :
    (s.processes (.performPrefetch address pt tlbHit) = none ∧
      s.step (.performPrefetch address pt tlbHit) = s) ∨
    ∃ pt' s',
      s.processes (.performPrefetch address pt tlbHit) =
        some (s.vpnOf address) ∧
      s.getOrCreateNode pt' (s.vpnOf address) = some s' ∧
      s.step (.performPrefetch address pt tlbHit) =
        (s'.demand pt' (s.vpnOf address)).1 := by
  cases pt with
  | none => exact Or.inl ⟨rfl, rfl⟩
  | some pt =>
      cases hSkip : tlbHit && !s.config.prefetchOnTlbHit with
      | true =>
          left
          simp [processes, step, performPrefetch, hSkip]
      | false =>
          cases hNode : s.getOrCreateNode pt (s.vpnOf address) with
          | none =>
              left
              simp [processes, step, performPrefetch, hSkip, hNode]
          | some s' =>
              right
              refine ⟨pt, s', ?_, hNode, ?_⟩
              · simp [processes, hSkip, hNode]
              · simp [step, performPrefetch, hSkip, hNode]

theorem valid_step
    {request : Request}
    (hValid : s.Valid l) :
    (s.step request).Valid (s.listAfter l request) := by
  cases request with
  | notifyVictim address pageSize ppn =>
      exact valid_notifyVictim address pageSize ppn hValid
  | performPrefetch address pt tlbHit =>
      rcases step_performPrefetch s address pt tlbHit with
        ⟨hNone, hStep⟩ | ⟨pt', s', hSome, hNode, hStep⟩
      · rw [listAfter, hNone, hStep]
        exact hValid
      · rcases valid_getOrCreateNode hValid hNode with
          ⟨hCreated, -, hPending, -⟩
        rw [listAfter, hSome, hStep, ← hPending]
        exact valid_demand hCreated

/- The configuration, and which pages have nodes. -/
def SameNodes (s' s : RecencyPrefetcher) : Prop :=
  s'.config = s.config ∧
    ∀ w, (s'.nodes w).isSome = (s.nodes w).isSome

theorem SameNodes.trans
    {s'' s' : RecencyPrefetcher}
    (hLast : SameNodes s'' s')
    (hFirst : SameNodes s' s) :
    SameNodes s'' s :=
  ⟨hLast.1.trans hFirst.1, fun w => (hLast.2 w).trans (hFirst.2 w)⟩

theorem sameNodes_listRemove
    (s : RecencyPrefetcher)
    (v : Nat) :
    SameNodes (s.listRemove v) s := by
  refine ⟨?_, fun w => isSome_listRemove⟩
  cases hNode : s.getNode v with
  | none => simp [listRemove, hNode]
  | some n =>
      simp only [listRemove, hNode, setPrev, setNext,
        modifyNode, unlinkBefore, unlinkBehind]
      split_ifs <;> rfl

theorem config_linkHead :
    (s.linkHead v).config = s.config := by
  simp only [linkHead]
  by_cases hHead : s.stackHeadVpn ≠ invalidVpn
  · simp only [if_pos hHead]
    split_ifs <;> rfl
  · simp only [if_neg hHead]
    split_ifs <;> rfl

theorem sameNodes_listPushFront
    (s : RecencyPrefetcher)
    (v : Nat) :
    SameNodes (s.listPushFront v) s := by
  refine ⟨?_, fun w => isSome_listPushFront⟩
  cases hNode : s.getNode v with
  | none => simp [listPushFront, hNode]
  | some n =>
      simp only [listPushFront, hNode]
      exact config_linkHead

theorem sameNodes_remove_if
    (s : RecencyPrefetcher)
    (v : Nat) :
    SameNodes
      (if s.listContains v then s.listRemove v else s) s := by
  split_ifs
  · exact sameNodes_listRemove s v
  · exact ⟨rfl, fun _ => rfl⟩

theorem sameNodes_setInTlb
    (s : RecencyPrefetcher)
    (v : Nat)
    (inTlb : Bool) :
    SameNodes (s.setInTlb v inTlb) s :=
  ⟨rfl, fun _ => isSome_modifyNode⟩

theorem sameNodes_consumePendingVictim
    (s : RecencyPrefetcher) :
    SameNodes s.consumePendingVictim s := by
  rw [consumePendingVictim]
  by_cases hNone : s.pendingVictimVpn = invalidVpn
  · rw [if_pos hNone]
    exact ⟨rfl, fun _ => rfl⟩
  · rw [if_neg hNone]
    cases s.getNode s.pendingVictimVpn with
    | none => exact ⟨rfl, fun _ => rfl⟩
    | some n =>
        have hPushed :=
          (sameNodes_listPushFront _ s.pendingVictimVpn).trans
            ((sameNodes_remove_if _ s.pendingVictimVpn).trans
              (sameNodes_setInTlb s s.pendingVictimVpn false))
        exact ⟨hPushed.1, hPushed.2⟩

theorem sameNodes_demand
    (s : RecencyPrefetcher)
    (pt : RecencyLookups)
    (v : Nat) :
    SameNodes (s.demand pt v).1 s := by
  rcases demand_eq s pt v with ⟨recent, hEq⟩
  rw [hEq]
  have hInstalled := (sameNodes_setInTlb _ v true).trans
    ((sameNodes_remove_if _ v).trans
      (sameNodes_consumePendingVictim s))
  exact ⟨hInstalled.1, hInstalled.2⟩

/- The address of a call. -/
def Request.address :
    Request → Nat
| .notifyVictim address _ _ => address
| .performPrefetch address _ _ => address

/- A call gives at most the page of its address a node. -/
theorem nodes_step
    (s : RecencyPrefetcher)
    (request : Request) :
    (s.step request).config = s.config ∧
      ∀ w, ((s.step request).nodes w).isSome →
        w = s.vpnOf request.address ∨ (s.nodes w).isSome := by
  cases request with
  | notifyVictim address pageSize ppn =>
      cases hNode : s.nodes (s.vpnOf address) with
      | none =>
          have hEq : s.step (.notifyVictim address pageSize ppn) =
              { s.createNode (s.vpnOf address) ppn with
                pendingVictimVpn := s.vpnOf address } := by
            simp only [step, notifyVictim, hNode]
          rw [hEq]
          refine ⟨rfl, fun w hKnown => ?_⟩
          have hSome : ((s.createNode (s.vpnOf address)
              ppn).nodes w).isSome := hKnown
          simpa [isSome_createNode, Request.address] using hSome
      | some n =>
          have hEq : s.step (.notifyVictim address pageSize ppn) =
              { s.modifyNode (s.vpnOf address)
                  (fun n => { n with ppn := ppn }) with
                pendingVictimVpn := s.vpnOf address } := by
            simp only [step, notifyVictim, hNode]
          rw [hEq]
          refine ⟨rfl, fun w hKnown => Or.inr ?_⟩
          have hSome : ((s.modifyNode (s.vpnOf address)
              (fun n => { n with ppn := ppn })).nodes
                w).isSome := hKnown
          rwa [isSome_modifyNode] at hSome
  | performPrefetch address pt tlbHit =>
      rcases step_performPrefetch s address pt tlbHit with
        ⟨-, hStep⟩ | ⟨pt', s', -, hNode, hStep⟩
      · rw [hStep]
        exact ⟨rfl, fun w hKnown => Or.inr hKnown⟩
      · rw [hStep]
        rcases sameNodes_demand s' pt' (s.vpnOf address) with
          ⟨hConfig, hSame⟩
        cases hOld : s.nodes (s.vpnOf address) with
        | some n =>
            simp only [getOrCreateNode, hOld,
              Option.some.injEq] at hNode
            subst hNode
            refine ⟨hConfig, fun w hKnown => Or.inr ?_⟩
            rwa [hSame] at hKnown
        | none =>
            cases hWalk : pt'.directWalk (s.vpnOf address) with
            | none =>
                simp [getOrCreateNode, hOld, hWalk] at hNode
            | some answer =>
                rcases answer with ⟨ppn, pageSize⟩
                simp only [getOrCreateNode, hOld, hWalk] at hNode
                split_ifs at hNode
                rw [Option.some.injEq] at hNode
                subst hNode
                refine ⟨hConfig, fun w hKnown => ?_⟩
                rw [hSame, isSome_createNode] at hKnown
                simpa [Request.address] using hKnown

/- Pages of two bytes and more have smaller numbers. -/
theorem vpnOf_ne_invalidVpn
    (address : Nat)
    (hShift : 1 ≤ s.config.pageShift) :
    s.vpnOf address ≠ invalidVpn := by
  have hLess : address % 18446744073709551616 /
        2 ^ s.config.pageShift ≤
      address % 18446744073709551616 / 2 ^ 1 :=
    Nat.div_le_div_left
      (Nat.pow_le_pow_right Nat.two_pos hShift) (by omega)
  rw [vpnOf, Nat.shiftRight_eq_div_pow, invalidVpn]
  omega

/-
  A valid list, and no node for the value of no page where
  it is the number of no page.
-/
def Sound (s : RecencyPrefetcher) : Prop :=
  (∃ l, s.Valid l) ∧
    (1 ≤ s.config.pageShift → (s.nodes invalidVpn).isSome = false)

theorem valid_construct
    (config : RecencyConfig)
    (coreId : Nat) :
    (construct config coreId).Valid [] where
  represents :=
    { nodup := List.nodup_nil
      nil_not_mem := by simp
      head_eq := rfl
      tail_eq := rfl
      seg := trivial
      unlinked := fun _ _ => ⟨rfl, rfl⟩ }
  known := by simp
  pending := absurd rfl

theorem sound_construct
    (config : RecencyConfig)
    (coreId : Nat) :
    (construct config coreId).Sound :=
  ⟨⟨[], valid_construct config coreId⟩, fun _ => rfl⟩

theorem sound_step
    {request : Request}
    (hSound : s.Sound) :
    (s.step request).Sound := by
  rcases hSound with ⟨⟨l, hValid⟩, hNone⟩
  rcases nodes_step s request with ⟨hConfig, hNodes⟩
  refine ⟨⟨_, valid_step hValid⟩, fun hShift => ?_⟩
  rw [hConfig] at hShift
  by_contra hSome
  rw [Bool.not_eq_false] at hSome
  rcases hNodes invalidVpn hSome with hEq | hOld
  · exact vpnOf_ne_invalidVpn _ hShift hEq.symm
  · rw [hNone hShift] at hOld
    exact Bool.false_ne_true hOld

theorem sound_foldl
    (hSound : s.Sound)
    (requests : List Request) :
    (requests.foldl step s).Sound := by
  induction requests generalizing s with
  | nil => exact hSound
  | cons request requests ih => exact ih (sound_step hSound)

/-
  The pages that are met from the head on, each once, are
  the linked ones; and the pointers of each lead back to it.
  Only with pages of one byte is the value of no page the
  number of a page, which is never linked.
-/
def WellFormed (s : RecencyPrefetcher) : Prop :=
  ∃ l : List Nat,
    s.links.Follows s.stackHeadVpn l ∧
    l.Nodup ∧
    s.stackTailVpn = l.getLastD invalidVpn ∧
    (∀ v ∈ l,
      (s.links.prev v ≠ invalidVpn →
        s.links.prev v ∈ l ∧ s.links.next (s.links.prev v) = v) ∧
      (s.links.next v ≠ invalidVpn →
        s.links.next v ∈ l ∧ s.links.prev (s.links.next v) = v)) ∧
    ∀ v, (v = invalidVpn → 1 ≤ s.config.pageShift) →
      (s.listContains v = true ↔ v ∈ l)

theorem Sound.wellFormed
    (hSound : s.Sound) :
    s.WellFormed := by
  rcases hSound with ⟨⟨l, hValid⟩, hNone⟩
  have hRep := hValid.represents
  refine ⟨l, hRep.follows, hRep.nodup, hRep.tail_eq, ?_, ?_⟩
  · intro v hMem
    exact ⟨hRep.next_prev hMem, hRep.prev_next hMem⟩
  · intro v hShift
    by_cases hEq : v = invalidVpn
    · subst hEq
      have hNode : s.nodes invalidVpn = none := by
        simpa using hNone (hShift rfl)
      have hOut : invalidVpn ∉ l := hRep.nil_not_mem
      simp [listContains, hNode, hOut]
    · exact hValid.listContains_iff hEq

/- After any calls the list is well formed. -/
theorem wellFormed_run
    (config : RecencyConfig)
    (coreId : Nat)
    (requests : List Request) :
    (requests.foldl step (construct config coreId)).WellFormed :=
  (sound_foldl (sound_construct config coreId) requests).wellFormed

end RecencyPrefetcher

end Virtuoso
