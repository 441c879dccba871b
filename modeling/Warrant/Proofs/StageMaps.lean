import Warrant.Flow.Stage
import Warrant.Proofs.Assoc
import Warrant.Proofs.Outcomes

/-!
# Both directions of a stage map

A stage map keeps its links in both directions, and two maps are equal if both directions are.  A
link is entered in both at once, and only for a block that has none yet or has the same one.  So the
directions agree in every map that can be built, and no earlier block has an empty set of
descendants (`Coherent`); such a map is determined by where its later blocks come from.

Maps are composed by following the links of the later map in ascending order of their blocks.  As
these blocks differ, nothing is ever in conflict, and the composition fails only at the first link
that does not lead on (`FirstGap`).

* `Coherent.link`, `Coherent.record`: what keeps the directions in agreement.
* `compose_cases`: what a composition can give.
* `directions_agree`: in every map that can be built the directions agree.
* `compose_relational`: composition is relational composition, and associative.
-/

namespace Warrant

namespace StageMap

variable {m m' a b c out out' : StageMap} {l l' e e' : BlockId}

/-! ## Links -/

/-- `StageMap.resolve` is `get?` with an error for blocks that are not mapped. -/
theorem resolve_eq_ok_iff : m.resolve l = .ok e ↔ m.get? l = some e := by
  unfold resolve
  cases m.get? l <;> simp

/-- `StageMap.link` maps one block and leaves the others. -/
private theorem get?_link (m : StageMap) (l e l' : BlockId) :
    (m.link l e).get? l' = if l = l' then some e else m.get? l' :=
  Table.get?_insert m.links l l' e

/-- `StageMap.link` adds to the offspring of one block and leaves that of the others. -/
private theorem offspringOf_link (m : StageMap) (l e e' : BlockId) :
    (m.link l e).offspringOf e' =
      if e = e' then (m.offspringOf e).insert l () else m.offspringOf e' := by
  rw [offspringOf, link, Table.get?_insert]
  by_cases heq : e = e'
  · rw [if_pos heq, if_pos heq, Option.getD_some]
  · rw [if_neg heq, if_neg heq, offspringOf]

/-- `StageMap.link` makes a block one more of the `descendants` of another. -/
private theorem mem_descendants_link :
    l' ∈ (m.link l e).descendants e' ↔ l' = l ∧ e' = e ∨ l' ∈ m.descendants e' := by
  rw [descendants, offspringOf_link]
  by_cases heq : e = e'
  · subst heq
    rw [if_pos rfl, Table.mem_keys_insert, and_iff_left rfl, descendants]
  · rw [if_neg heq, descendants, or_iff_right fun h => heq h.2.symm]

/-- `descendants` are in ascending order. -/
private theorem pairwise_descendants (m : StageMap) (e : BlockId) :
    (m.descendants e).Pairwise (· < ·) :=
  List.pairwise_map.2 ((m.offspringOf e).ascending.imp fun h => Nat.compare_eq_lt.1 h)

/-- What `StageMap.record` can do: nothing, if the link is there already or in conflict with one, or
    else `link`. -/
private theorem record_cases (m : StageMap) (l e : BlockId) :
    (m.get? l = some e ∧ m.record l e = (.ok (), m)) ∨
    (∃ existing, m.get? l = some existing ∧ existing ≠ e ∧
      m.record l e = (.error (.conflictingStage l e existing), m)) ∨
    (m.get? l = none ∧ m.record l e = (.ok (), m.link l e)) := by
  unfold record
  cases hget : m.get? l with
  | none => exact .inr (.inr ⟨rfl, rfl⟩)
  | some existing =>
    by_cases heq : existing = e
    · exact .inl ⟨congrArg some heq, if_pos heq⟩
    · exact .inr (.inl ⟨existing, rfl, heq, if_neg heq⟩)

/-- `StageMap.insert` succeeds for a block that is not mapped. -/
private theorem insert_new (h : m.get? l = none) : m.insert l e = .ok (m.link l e) := by
  simp only [insert, record, h]

/-! ## Agreement of the directions -/

/-- The directions `links` and `offspring` of a map agree, and no set in `offspring` is empty. -/
structure Coherent (m : StageMap) : Prop where
  mem_descendants_iff : ∀ l e, l ∈ m.descendants e ↔ m.get? l = some e
  inhabited : ∀ e set, m.offspring.get? e = some set → ∃ l, l ∈ set.keys

namespace Coherent

/-- The empty map is `Coherent`. -/
theorem empty : Coherent {} where
  mem_descendants_iff _ _ := iff_of_false List.not_mem_nil fun h => nomatch h
  inhabited _ _ h := nomatch h

/-- A map stays `Coherent` if a link is entered for a block that is not mapped to another one. -/
theorem link (h : m.Coherent) (hfree : ∀ e', m.get? l = some e' → e' = e) :
    (m.link l e).Coherent where
  mem_descendants_iff l' e' := by
    rw [mem_descendants_link, h.mem_descendants_iff, get?_link]
    by_cases heq : l = l'
    · -- If the block is an offspring already, then of the same block.
      subst heq
      rw [if_pos rfl, Option.some.injEq, and_iff_right rfl]
      exact ⟨fun h => (h.elim (fun h => h) (hfree e')).symm, fun h => .inl h.symm⟩
    · rw [if_neg heq, or_iff_right fun h => heq h.1.symm]
  inhabited e' set hset := by
    rw [StageMap.link, Table.get?_insert] at hset
    split at hset
    · obtain rfl := Option.some.inj hset
      exact ⟨l, Table.mem_keys_insert.2 (.inl rfl)⟩
    · exact h.inhabited e' set hset

/-- `StageMap.record` keeps a map `Coherent`, whether the link is accepted or not. -/
theorem record (h : m.Coherent) (l e : BlockId) : (m.record l e).2.Coherent := by
  obtain ⟨-, heq⟩ | ⟨existing, -, -, heq⟩ | ⟨hnone, heq⟩ := m.record_cases l e
  · rwa [heq]
  · rwa [heq]
  · rw [heq]
    exact h.link fun e' hget => nomatch hnone.symm.trans hget

/-- Links from blocks to themselves keep a map `Coherent`, as they are not in conflict with each
    other. -/
private theorem foldl_link_self (h : m.Coherent) (hself : ∀ l e, m.get? l = some e → e = l)
    (ids : List BlockId) : (ids.foldl (fun m id => m.link id id) m).Coherent := by
  induction ids generalizing m with
  | nil => exact h
  | cons id ids ih =>
    refine ih (h.link (hself id)) fun l e hget => ?_
    rw [get?_link] at hget
    split at hget
    · next heq => rw [← heq, Option.some.inj hget]
    · exact hself l e hget

/-- `StageMap.identity` is `Coherent`. -/
theorem identity (g : Graph) : (StageMap.identity g).Coherent :=
  empty.foldl_link_self (fun _ _ h => nomatch h) g.ids

/-- There is a set in `offspring` for exactly the blocks that have descendants. -/
private theorem offspring_isSome_iff (h : m.Coherent) (e : BlockId) :
    (m.offspring.get? e).isSome ↔ ∃ l, m.get? l = some e := by
  simp only [← h.mem_descendants_iff, descendants, offspringOf]
  cases hset : m.offspring.get? e with
  | none => exact iff_of_false (fun h => nomatch h) fun h => h.elim fun l hl => List.not_mem_nil hl
  | some set => exact iff_of_true rfl (h.inhabited e set hset)

/-- A `Coherent` map is determined by `get?`. -/
private theorem eq_of_get? (h : m.Coherent) (h' : m'.Coherent) (hget : ∀ l, m.get? l = m'.get? l) :
    m = m' := by
  have hlinks : m.links = m'.links := Table.ext hget
  have hsets : m.offspring = m'.offspring := by
    refine Table.ext fun e => ?_
    -- An empty set and none give the same descendants, so it has to be known that there are no
    -- empty ones.
    have hsome : (m.offspring.get? e).isSome ↔ (m'.offspring.get? e).isSome := by
      simp only [h.offspring_isSome_iff, h'.offspring_isSome_iff, hget]
    have hmem (l : BlockId) : l ∈ m.descendants e ↔ l ∈ m'.descendants e := by
      rw [h.mem_descendants_iff, h'.mem_descendants_iff, hget]
    simp only [descendants, offspringOf] at hmem
    cases hset : m.offspring.get? e with
    | none =>
      rw [hset] at hsome
      exact (Option.not_isSome_iff_eq_none.1 fun hset' => nomatch hsome.2 hset').symm
    | some set =>
      obtain ⟨set', hset'⟩ := Option.isSome_iff_exists.1 (hsome.1 (Option.isSome_of_eq_some hset))
      rw [hset, hset'] at hmem
      rw [hset']
      exact congrArg some (Table.eq_of_mem_keys_iff hmem)
  cases m
  cases m'
  -- Both fields agree.
  exact congrArg₂ StageMap.mk hlinks hsets

end Coherent

/-! ## Composition -/

/-- One step of `StageMap.compose`: `resolve` where a link of the later map leads to and `insert`
    it. -/
def follow (earlier out : StageMap) (link : BlockId × BlockId) : Except FlowError StageMap := do
  out.insert link.1 (← earlier.resolve link.2)

/-- `follow` adds a link for a block that is not mapped yet, if the link leads on. -/
private theorem follow_of_some {link : BlockId × BlockId} (hnew : out.get? link.1 = none)
    (hleads : b.get? link.2 = some e) : follow b out link = .ok (out.link link.1 e) := by
  rw [follow, resolve_eq_ok_iff.2 hleads]
  exact insert_new hnew

/-- `follow` reports a link that does not lead on. -/
private theorem follow_of_none {link : BlockId × BlockId} (hstops : b.get? link.2 = none) :
    follow b out link = .error (.missingStage link.2) := by
  simp only [follow, resolve, hstops]
  rfl

/-- `follow` takes links from different blocks up to the first that does not lead on.  If all do,
    each of the blocks is mapped to where its link leads. -/
private theorem foldlM_follow_cases {links : List (BlockId × BlockId)}
    (hlinks : links.Pairwise fun x y => compare x.1 y.1 = .lt)
    (hnew : ∀ link ∈ links, out.get? link.1 = none) (hout : out.Coherent) :
    (∃ out', links.foldlM (follow b) out = .ok out' ∧ (∀ link ∈ links, (b.get? link.2).isSome) ∧
      out'.Coherent ∧
      ∀ l, out'.get? l = (Table.lookup l links).elim (out.get? l) b.get?) ∨
    (∃ before link after, links = before ++ link :: after ∧
      links.foldlM (follow b) out = .error (.missingStage link.2) ∧ b.get? link.2 = none ∧
      ∀ link' ∈ before, (b.get? link'.2).isSome) := by
  induction links generalizing out with
  | nil => exact .inl ⟨out, rfl, fun _ h => absurd h List.not_mem_nil, hout, fun _ => rfl⟩
  | cons link links ih =>
    obtain ⟨hfirst, hlinks⟩ := List.pairwise_cons.1 hlinks
    obtain ⟨hnewFirst, hnew⟩ := List.forall_mem_cons.1 hnew
    -- The keys ascend, so the other links start at other blocks.
    have hother : ∀ link' ∈ links, link.1 ≠ link'.1 := by
      intro link' hlink' heq
      have hlt := hfirst link' hlink'
      simp [heq] at hlt
    rw [List.foldlM_cons]
    cases hleads : b.get? link.2 with
    | none =>
      rw [follow_of_none hleads]
      exact .inr ⟨[], link, links, rfl, rfl, hleads, fun _ h => absurd h List.not_mem_nil⟩
    | some e =>
      rw [follow_of_some hnewFirst hleads]
      have hnext : ∀ link' ∈ links, (out.link link.1 e).get? link'.1 = none := by
        intro link' hlink'
        rw [get?_link, if_neg (hother link' hlink')]
        exact hnew link' hlink'
      have hsome : (b.get? link.2).isSome := Option.isSome_of_eq_some hleads
      have hcoherent := hout.link (e := e) fun e' h => nomatch hnewFirst.symm.trans h
      obtain ⟨out', hok, hall, hout', hget⟩ | ⟨before, gap, after, rfl, herror, hgap, hbefore⟩ :=
        ih hlinks hnext hcoherent
      · refine .inl ⟨out', hok, List.forall_mem_cons.2 ⟨hsome, hall⟩, hout', fun l => ?_⟩
        rw [hget, Table.lookup, get?_link]
        by_cases hl : link.1 = l
        · -- The block of the first link has no other.
          subst hl
          simp [Table.lookup_eq_none_of_ne hother, hleads]
        · have hne : ¬compare l link.1 = .eq := fun h =>
              hl (Std.LawfulEqCmp.compare_eq_iff_eq.1 h).symm
          rw [if_neg hne, if_neg hl]
      · exact .inr ⟨link :: before, gap, after, rfl, herror, hgap,
          List.forall_mem_cons.2 ⟨hsome, hbefore⟩⟩

/-- `out` leads from a block to where `b` leads from where `a` leads, and `b` leads on from wherever
    `a` leads. -/
structure Through (a b out : StageMap) : Prop where
  leads_on : ∀ l m, a.get? l = some m → (b.get? m).isSome
  coherent : out.Coherent
  get?_eq : ∀ l, out.get? l = (a.get? l).bind b.get?

/-- `l` is the first block that `a` leads to a block `m` which `b` does not have. -/
structure FirstGap (a b : StageMap) (l m : BlockId) : Prop where
  leads : a.get? l = some m
  stops : b.get? m = none
  first : ∀ l' < l, ∀ m', a.get? l' = some m' → (b.get? m').isSome

/-- `StageMap.compose` gives a map that goes `Through` both, or reports the `FirstGap`. -/
theorem compose_cases (a b : StageMap) :
    (∃ out, a.compose b = .ok out ∧ a.Through b out) ∨
    (∃ l m, a.compose b = .error (.missingStage m) ∧ a.FirstGap b l m) := by
  have hentries (l m : BlockId) : a.get? l = some m ↔ (l, m) ∈ a.links.entries :=
    a.links.get?_eq_some_iff l m
  obtain ⟨out, hok, hall, hout, hget⟩ | ⟨before, gap, after, hsplit, herror, hgap, hbefore⟩ :=
    foldlM_follow_cases (b := b) a.links.ascending (fun _ _ => rfl) Coherent.empty
  · refine .inl ⟨out, hok, fun l m hl => hall (l, m) ((hentries l m).1 hl), hout, fun l => ?_⟩
    have hlookup : out.get? l = (a.get? l).elim none b.get? := hget l
    rw [hlookup]
    cases a.get? l <;> rfl
  · have hmem : (gap.1, gap.2) ∈ a.links.entries :=
        hsplit ▸ List.mem_append_right before List.mem_cons_self
    refine .inr ⟨gap.1, gap.2, herror, (hentries _ _).2 hmem, hgap, fun l hl m hget => ?_⟩
    -- The links behind the gap start at larger blocks.
    have hlink := (hentries l m).1 hget
    have hascending := a.links.ascending
    rw [hsplit] at hlink hascending
    rcases List.mem_append.1 hlink with hlink | hlink
    · exact hbefore (l, m) hlink
    · have hle : gap.1 ≤ l := by
        rcases List.mem_cons.1 hlink with heq | hlink
        · exact Nat.le_of_eq (congrArg Prod.fst heq).symm
        · have hlt := (List.pairwise_cons.1 (List.pairwise_append.1 hascending).2.1).1 (l, m) hlink
          exact Nat.le_of_lt (Nat.compare_eq_lt.1 hlt)
      exact absurd hl (Nat.not_lt.2 hle)

/-- The map `b` does not have the block of a `FirstGap`. -/
theorem FirstGap.not_isSome {m : BlockId} (h : a.FirstGap b l m) : ¬(b.get? m).isSome := by
  simp [h.stops]

/-- There is no `FirstGap` where a map goes `Through` both. -/
private theorem Through.not_firstGap (h : a.Through b out) {m : BlockId} :
    ¬a.FirstGap b l m := fun hgap =>
  hgap.not_isSome (h.leads_on l m hgap.leads)

/-- There is one `FirstGap`. -/
theorem FirstGap.unique {m m' : BlockId} (h : a.FirstGap b l m) (h' : a.FirstGap b l' m') :
    m = m' := by
  -- Neither gap is before the other.
  have hle {l l' m m' : BlockId} (h : a.FirstGap b l m) (h' : a.FirstGap b l' m') : l ≤ l' :=
    Nat.not_lt.1 fun hlt => h'.not_isSome (h.first l' hlt m' h'.leads)
  obtain rfl : l = l' := Nat.le_antisymm (hle h h') (hle h' h)
  exact Option.some.inj (h.leads.symm.trans h'.leads)

/-- The result of `StageMap.compose` is the map that goes `Through` both. -/
theorem compose_eq_ok_iff : a.compose b = .ok out ↔ a.Through b out := by
  obtain ⟨out', hok, hthrough⟩ | ⟨l, m, herror, hgap⟩ := compose_cases a b
  · rw [hok, Except.ok.injEq]
    constructor
    · rintro rfl
      exact hthrough
    · -- Such a map is determined by where it leads.
      intro h
      exact hthrough.coherent.eq_of_get? h.coherent fun l =>
        (hthrough.get?_eq l).trans (h.get?_eq l).symm
  · rw [herror]
    exact iff_of_false (fun h => nomatch h) fun h => h.not_firstGap hgap

/-- `StageMap.compose` succeeds if the earlier map leads on from every link of the later one. -/
private theorem compose_succeeds_iff :
    Succeeds (a.compose b) ↔ ∀ l m, a.get? l = some m → (b.get? m).isSome := by
  obtain ⟨out, hok, hthrough⟩ | ⟨l, m, herror, hgap⟩ := compose_cases a b
  · rw [hok]
    exact iff_of_true (succeeds_ok out) hthrough.leads_on
  · rw [herror]
    exact iff_of_false (not_succeeds_error _) fun h => hgap.not_isSome (h l m hgap.leads)

/-- `StageMap.compose` fails only at the `FirstGap`. -/
private theorem compose_eq_error_iff {err : FlowError} :
    a.compose b = .error err ↔ ∃ l m, a.FirstGap b l m ∧ err = .missingStage m := by
  obtain ⟨out, hok, hthrough⟩ | ⟨l, m, herror, hgap⟩ := compose_cases a b
  · rw [hok]
    exact iff_of_false (fun h => nomatch h) fun ⟨l, m, hgap, _⟩ => hthrough.not_firstGap hgap
  · rw [herror, Except.error.injEq]
    constructor
    · rintro rfl
      exact ⟨l, m, hgap, rfl⟩
    · rintro ⟨l', m', hgap', rfl⟩
      rw [hgap.unique hgap']

/-- `StageMap.checkTotal` accepts a map that has every block of the graph. -/
theorem checkTotal_eq_ok_iff {g : Graph} :
    m.checkTotal g = .ok () ↔ ∀ b ∈ g.ids, (m.get? b).isSome := by
  unfold checkTotal
  rw [forM_eq_ok_iff]
  refine forall₂_congr fun b _ => ?_
  unfold resolve
  cases m.get? b with
  | none => exact iff_of_false (fun h => nomatch h) fun h => nomatch h
  | some c => exact iff_of_true rfl rfl

/-! ## What can be built -/

/-- The maps that can be built: the empty one, `StageMap.identity`, compositions, and what
    `StageMap.record` leaves of such a map, whether the link is accepted or not. -/
inductive Built : StageMap → Prop where
  | new : Built {}
  | identity (g : Graph) : Built (StageMap.identity g)
  | compose {a b out : StageMap} (ha : Built a) (hb : Built b) (h : a.compose b = .ok out) :
      Built out
  | record {m : StageMap} (h : Built m) (l e : BlockId) : Built (m.record l e).2

/-- Every map that can be built is `Coherent`. -/
private theorem Built.coherent (h : m.Built) : m.Coherent := by
  induction h with
  | new => exact .empty
  | identity g => exact .identity g
  | compose _ _ hout => exact (compose_eq_ok_iff.1 hout).coherent
  | record _ l e ih => exact ih.record l e

/-- The map after several `StageMap.record`, whatever their outcomes. -/
def recordAll (m : StageMap) (links : List (BlockId × BlockId)) : StageMap :=
  links.foldl (fun m link => (m.record link.1 link.2).2) m

/-- A map stays `Built` under `recordAll`. -/
theorem Built.recordAll (h : m.Built) (links : List (BlockId × BlockId)) :
    (m.recordAll links).Built := by
  induction links generalizing m with
  | nil => exact h
  | cons link links ih => exact ih (h.record link.1 link.2)

/-- `StageMap.record` accepts a link if the block has no other. -/
private theorem record_eq_ok_iff :
    (m.record l e).1 = .ok () ↔ ∀ e', m.get? l = some e' → e' = e := by
  obtain ⟨hget, heq⟩ | ⟨existing, hget, hne, heq⟩ | ⟨hget, heq⟩ := m.record_cases l e
  · rw [heq, hget]
    exact iff_of_true rfl fun e' h => (Option.some.inj h).symm
  · rw [heq, hget]
    exact iff_of_false (fun h => nomatch h) fun h => hne (h existing rfl)
  · rw [heq, hget]
    exact iff_of_true rfl fun e' h => nomatch h

/-- `StageMap.record` changes nothing if it refuses a link. -/
private theorem record_of_error {err : FlowError} (h : (m.record l e).1 = .error err) :
    (m.record l e).2 = m := by
  obtain ⟨-, heq⟩ | ⟨existing, -, -, heq⟩ | ⟨-, heq⟩ := m.record_cases l e
  · rw [heq]
  · rw [heq]
  · rw [heq] at h
    cases h

/-- `StageMap.record` maps the block of a link that it accepts and changes nothing for any other. -/
private theorem get?_record_of_ok (h : (m.record l e).1 = .ok ()) (l' : BlockId) :
    (m.record l e).2.get? l' = if l = l' then some e else m.get? l' := by
  obtain ⟨hget, heq⟩ | ⟨existing, -, -, heq⟩ | ⟨-, heq⟩ := m.record_cases l e
  · rw [heq]
    split
    · next hl => exact hl ▸ hget
    · rfl
  · rw [heq] at h
    cases h
  · rw [heq, get?_link]

/-- In every map that can be built the `descendants` of a block, ascending, are the blocks that come
    from it.  `StageMap.record` is accepted unless the block is mapped to another one.  If it is
    refused, the map stays as it is; if it is accepted, nothing changes for other blocks.  Two maps
    that can be built are equal exactly if they give the same answer for every later block. -/
theorem directions_agree (h : m.Built) :
    (∀ l e, l ∈ m.descendants e ↔ m.get? l = some e) ∧ (∀ e, (m.descendants e).Pairwise (· < ·)) ∧
    (∀ l e, (m.record l e).1 = .ok () ↔ ∀ e', m.get? l = some e' → e' = e) ∧
    (∀ l e err, (m.record l e).1 = .error err → (m.record l e).2 = m) ∧
    (∀ l e, (m.record l e).1 = .ok () → (m.record l e).2.get? l = some e ∧
      ∀ l' ≠ l, (m.record l e).2.get? l' = m.get? l' ∧
        ∀ e', l' ∈ (m.record l e).2.descendants e' ↔ l' ∈ m.descendants e') ∧
    ∀ m', m'.Built → (m = m' ↔ ∀ l, m.get? l = m'.get? l) := by
  refine ⟨h.coherent.mem_descendants_iff, m.pairwise_descendants, fun l e => record_eq_ok_iff,
    fun l e err => record_of_error, fun l e hok => ?_, fun m' h' => ?_⟩
  · have hget := get?_record_of_ok hok
    refine ⟨by rw [hget, if_pos rfl], fun l' hne => ?_⟩
    have hother : (m.record l e).2.get? l' = m.get? l' := by rw [hget, if_neg hne.symm]
    refine ⟨hother, fun e' => ?_⟩
    rw [(h.record l e).coherent.mem_descendants_iff, h.coherent.mem_descendants_iff, hother]
  · constructor
    · rintro rfl l
      rfl
    · exact h.coherent.eq_of_get? h'.coherent

/-- The order of links does not matter to `recordAll`, nor do repeated and refused ones. -/
theorem directions_agree_reordered :
    let m := recordAll {} [(6, 1), (5, 1), (5, 2), (7, 2)]
    let m' := recordAll {} [(7, 2), (5, 1), (5, 1), (6, 1)]
    m.descendants 1 = [5, 6] ∧ (m.record 5 2).1 = .error (.conflictingStage 5 2 1) ∧
      (m.record 5 2).2 = m ∧ m.get? 6 = some 1 ∧ m = m' := by
  intro m m'
  have hdescendants : m.descendants 1 = [5, 6] := by decide +kernel
  have hrefused : (m.record 5 2).1 = .error (.conflictingStage 5 2 1) := by decide +kernel
  obtain ⟨hmem, -, -, hunchanged, -, hequal⟩ := directions_agree (Built.new.recordAll _ : m.Built)
  refine ⟨hdescendants, hrefused, hunchanged 5 2 _ hrefused,
    (hmem 6 1).1 (hdescendants ▸ by decide), ?_⟩
  exact (hequal m' (Built.new.recordAll _)).2 fun l => rfl

/-! ## Laws of composition -/

/-- The `descendants` of a block in a map that goes `Through` both are the descendants of its
    descendants. -/
private theorem Through.mem_descendants_iff (h : a.Through b out) (ha : a.Coherent)
    (hb : b.Coherent) : l ∈ out.descendants e ↔ ∃ m ∈ b.descendants e, l ∈ a.descendants m := by
  simp only [h.coherent.mem_descendants_iff, ha.mem_descendants_iff, hb.mem_descendants_iff,
    h.get?_eq, Option.bind_eq_some_iff, and_comm]

/-- A map that goes `Through` both has the blocks of the later one. -/
theorem Through.get?_isSome_iff (h : a.Through b out) :
    (out.get? l).isSome ↔ (a.get? l).isSome := by
  rw [h.get?_eq]
  cases hl : a.get? l with
  | none => rfl
  | some m => exact iff_of_true (h.leads_on l m hl) rfl

/-- `StageMap.compose` is associative, errors included. -/
private theorem compose_assoc {bc : StageMap} (hbc : b.compose c = .ok bc) :
    a.compose bc = a.compose b >>= fun ab => ab.compose c := by
  have hbc := compose_eq_ok_iff.1 hbc
  obtain ⟨ab, hab, hthrough⟩ | ⟨l, m, herror, hgap⟩ := compose_cases a b
  · rw [hab]
    show a.compose bc = ab.compose c
    -- Wherever the first two maps lead, the second leads there, so the third leads on.
    obtain ⟨abc, habc, hthrough'⟩ | ⟨l, e, -, hgap⟩ := compose_cases ab c
    · rw [habc, compose_eq_ok_iff]
      refine ⟨fun l m hl => hbc.get?_isSome_iff.2 (hthrough.leads_on l m hl), hthrough'.coherent,
        fun l => ?_⟩
      rw [hthrough'.get?_eq, hthrough.get?_eq, Option.bind_assoc]
      exact congrArg _ (funext fun m => (hbc.get?_eq m).symm)
    · obtain ⟨m, -, hm⟩ := Option.bind_eq_some_iff.1 ((hthrough.get?_eq l).symm.trans hgap.leads)
      exact absurd (hbc.leads_on m e hm) hgap.not_isSome
  · -- The composition of the other two maps has the blocks of the second, so it has the same first
    -- gap.
    rw [herror]
    refine compose_eq_error_iff.2 ⟨l, m, ⟨hgap.leads, ?_, fun l' hl' m' hget => ?_⟩, rfl⟩
    · rw [hbc.get?_eq, hgap.stops, Option.bind_none]
    · exact hbc.get?_isSome_iff.2 (hgap.first l' hl' m' hget)

/-- `StageMap.compose` succeeds exactly if the second map has every block to which the first leads;
    otherwise the error names the block to which the smallest offending later block leads.  The
    composition is the relational one in both directions, and it is associative, errors included. -/
theorem compose_relational (a b c : StageMap) :
    (Succeeds (a.compose b) ↔ ∀ l m, a.get? l = some m → (b.get? m).isSome) ∧
    (∀ err, a.compose b = .error err ↔
      ∃ l m, a.get? l = some m ∧ b.get? m = none ∧
        (∀ l' < l, ∀ m', a.get? l' = some m' → (b.get? m').isSome) ∧
        err = .missingStage m) ∧
    (∀ out, a.compose b = .ok out →
      (∀ l, out.get? l = (a.get? l).bind b.get?) ∧
      (a.Built → b.Built → ∀ e, (out.descendants e).Pairwise (· < ·) ∧
        ∀ l, l ∈ out.descendants e ↔ ∃ m ∈ b.descendants e, l ∈ a.descendants m)) ∧
    (∀ bc, b.compose c = .ok bc → a.compose bc = a.compose b >>= fun ab => ab.compose c) := by
  refine ⟨compose_succeeds_iff, fun err => ?_, fun out hout => ?_, fun bc => compose_assoc⟩
  · rw [compose_eq_error_iff]
    constructor
    · rintro ⟨l, m, hgap, rfl⟩
      exact ⟨l, m, hgap.leads, hgap.stops, hgap.first, rfl⟩
    · rintro ⟨l, m, hleads, hstops, hfirst, rfl⟩
      exact ⟨l, m, ⟨hleads, hstops, hfirst⟩, rfl⟩
  · have hthrough := compose_eq_ok_iff.1 hout
    exact ⟨hthrough.get?_eq, fun ha hb e =>
      ⟨out.pairwise_descendants e, fun l => hthrough.mem_descendants_iff ha.coherent hb.coherent⟩⟩

/-- Copies of copies, and a `missingStage` for the smallest of three blocks with gaps. -/
theorem compose_relational_copies :
    let a := recordAll {} [(12, 4), (11, 3), (10, 3)]
    let b := recordAll {} [(3, 0), (4, 0)]
    let c := recordAll {} [(0, 7)]
    (∃ ab bc, a.compose b = .ok ab ∧ ab.descendants 0 = [10, 11, 12] ∧
        (∃ m ∈ b.descendants 0, 11 ∈ a.descendants m) ∧
      b.compose c = .ok bc ∧ a.compose bc = ab.compose c) ∧
    a.compose c = .error (.missingStage 3) ∧ c.get? 3 = none := by
  intro a b c
  have hab : a.compose b = .ok (recordAll {} [(10, 0), (11, 0), (12, 0)]) := by decide +kernel
  have hbc : b.compose c = .ok (recordAll {} [(3, 7), (4, 7)]) := by decide +kernel
  have hac : a.compose c = .error (.missingStage 3) := by decide +kernel
  obtain ⟨-, -, hlaws, hassoc⟩ := compose_relational a b c
  -- Block 11 comes from 0 by way of 3.
  have hunion := ((hlaws _ hab).2 (Built.new.recordAll _) (Built.new.recordAll _) 0).2 11
  obtain ⟨l, m, -, hstops, -, heq⟩ := ((compose_relational a c b).2.1 _).1 hac
  have hassoc := hassoc _ hbc
  rw [hab] at hassoc
  cases heq
  exact ⟨⟨_, _, hab, by decide +kernel, hunion.1 (by decide +kernel), hbc, hassoc⟩, hac, hstops⟩

end StageMap

end Warrant
