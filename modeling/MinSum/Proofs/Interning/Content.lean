import MinSum.Domain
import MinSum.Energy.Double
import MinSum.Proofs.Interning
import MinSum.Proofs.Table.Sound

/-! What contents are compared by. Domains agree if they are of one kind and have the same values
in the same order, tables if they have the same sizes and rows and their energies agree bit by bit.
What agrees is the same, so a hash table finds what an interner finds. -/
namespace MinSum

namespace Interner

variable {α κ η : Type} [DecidableEq κ]

/-- The key of the content that a hash table finds for `x`: its hash is that of `x`, and it agrees
with `x`. -/
def search (r : Interner α) (content : α → κ) (hashed : α → η) (hash : η → UInt64) (x : α) :
    Option Nat :=
  r.contents.findIdx? fun y =>
    decide (hash (hashed y) = hash (hashed x)) && decide (content y = content x)

variable [DecidableEq α] {content : α → κ} {hashed : α → η}

/-- If nothing that is kept agrees with `x` but `x` itself, a hash table finds just that. -/
theorem search_eq {r : Interner α} {x : α} (h : ∀ y ∈ r.contents, content y = content x → y = x)
    (hash : η → UInt64) : r.search content hashed hash x = r.contents.findIdx? (· = x) := by
  have hagree : ∀ y ∈ r.contents, (decide (hash (hashed y) = hash (hashed x)) &&
      decide (content y = content x)) = decide (y = x) := by
    intro y hy
    rw [← Bool.decide_and]
    refine decide_eq_decide.2 ⟨fun hc => h y hy hc.2, ?_⟩
    rintro rfl
    exact ⟨rfl, rfl⟩
  unfold search
  cases hf : r.contents.findIdx? (· = x) with
  | none =>
    exact Array.findIdx?_eq_none_iff.2 fun y hy =>
      (hagree y hy).trans (Array.findIdx?_eq_none_iff.1 hf y hy)
  | some key =>
    obtain ⟨hlt, hx, hfirst⟩ := Array.findIdx?_eq_some_iff_getElem.1 hf
    refine Array.findIdx?_eq_some_iff_getElem.2 ⟨hlt, ?_, fun j hj => ?_⟩
    · rwa [hagree _ (Array.getElem_mem hlt)]
    · rw [hagree _ (Array.getElem_mem (hj.trans hlt))]
      exact hfirst j hj

/-- Interning `xs` from the beginning has handed out what was passed in, and the keys tell which
contents agree. There is one entry for all contents that agree, and a hash table finds it, whichever
valid content is interned next. -/
structure Serves (content : α → κ) (hashed : α → η) (valid : α → Prop) (xs : List α)
    (handed : List (Shared α)) (r : Interner α) : Prop where
  mem_iff : ∀ x, x ∈ r.contents ↔ x ∈ xs
  size_eq : r.size = (xs.map content).toFinset.card
  handed_eq : List.Forall₂ (fun s x => s.content = x ∧ r.contents[s.key]? = some x) handed xs
  key_eq_iff : ∀ s ∈ handed, ∀ s' ∈ handed,
    s.key = s'.key ↔ content s.content = content s'.content
  search_eq : ∀ hash : η → UInt64, ∀ x, valid x →
    r.search content hashed hash x = r.contents.findIdx? (· = x)

theorem serves_internAll {valid : α → Prop}
    (h : ∀ x y, valid x → valid y → content x = content y → x = y) {xs : List α}
    (hxs : ∀ x ∈ xs, valid x) :
    Serves content hashed valid xs (internAll {} xs).1 (internAll {} xs).2 := by
  have hmem : ∀ x, x ∈ (internAll {} xs).2.contents ↔ x ∈ xs := fun x => by
    simp [mem_contents_internAll]
  refine ⟨hmem, ?_, handed_internAll {} xs, fun s hs s' hs' => ?_, fun hash x hx => ?_⟩
  · have himage : (xs.map content).toFinset = xs.toFinset.image content := by
      ext c
      simp
    have hinj : Set.InjOn content xs.toFinset := fun x hx y hy =>
      h x y (hxs x (List.mem_toFinset.1 hx)) (hxs y (List.mem_toFinset.1 hy))
    rw [size_internAll, himage, Finset.card_image_of_injOn hinj]
  · obtain ⟨hs, hkey⟩ := of_mem_internAll {} hs
    obtain ⟨hs', hkey'⟩ := of_mem_internAll {} hs'
    rw [Interner.key_eq_iff hkey hkey']
    exact ⟨congrArg content, h _ _ (hxs _ hs) (hxs _ hs')⟩
  · exact Interner.search_eq (fun y hy => h y x (hxs y ((hmem y).1 hy)) hx) hash

end Interner

namespace Domain

def content (d : Domain) : Kind × List Value := (d.kind, d.values.toList)

def hashed (d : Domain) : Kind × Nat × List Value := (d.kind, d.size, d.values.toList)

theorem content_inj {d d' : Domain} : d.content = d'.content ↔ d = d' := by
  obtain ⟨kind, values, nodup⟩ := d
  obtain ⟨kind', values', nodup'⟩ := d'
  simp [content, Array.toList_inj]

theorem search_eq (r : Interner Domain) {η : Type} (hashed : Domain → η) (hash : η → UInt64)
    (d : Domain) : r.search content hashed hash d = r.contents.findIdx? (· = d) :=
  Interner.search_eq (fun _ _ => content_inj.1) hash

end Domain

theorem Energy.Double.toBits_inj {x y : Float} : x.toBits = y.toBits ↔ x = y := by
  refine ⟨fun h => ?_, congrArg Float.toBits⟩
  obtain ⟨⟨bits, valid⟩⟩ := x
  obtain ⟨⟨bits', valid'⟩⟩ := y
  obtain rfl : bits = bits' := h
  rfl

def Row.bits (r : Row Float) : List Nat × UInt64 := (r.indices, r.energy.toBits)

theorem Row.bits_injective : Function.Injective Row.bits := by
  intro r r' h
  obtain ⟨hindices, hbits⟩ := Prod.mk.inj h
  exact congrArg₂ Row.mk hindices (Energy.Double.toBits_inj.1 hbits)

namespace Table

/-- What tables are compared by. The index from values to rows is left out. -/
def content (t : Table Float) : List Nat × List (List Nat) × List UInt64 :=
  (t.sizes, t.rows.toList.map (·.indices), t.rows.toList.map (·.energy.toBits))

def hashed (t : Table Float) : List Nat × List Nat × List UInt64 :=
  (t.sizes, t.rows.toList.flatMap (·.indices), t.rows.toList.map (·.energy.toBits))

theorem content_eq_iff {t t' : Table Float} : t.content = t'.content ↔
    t.sizes = t'.sizes ∧ t.rows.toList.map Row.bits = t'.rows.toList.map Row.bits := by
  have hzip : ∀ rows : List (Row Float), rows.map Row.bits =
      (rows.map (·.indices)).zip (rows.map (·.energy.toBits)) := by
    intro rows
    rw [List.zip_map']
    rfl
  constructor
  · intro h
    obtain ⟨hsizes, hrows⟩ := Prod.mk.inj h
    obtain ⟨hindices, hbits⟩ := Prod.mk.inj hrows
    rw [hzip, hzip, hindices, hbits]
    exact ⟨hsizes, rfl⟩
  · rintro ⟨hsizes, hrows⟩
    have heq := Row.bits_injective.list_map hrows
    rw [content, content, hsizes, heq]

/-- Tables that constructors make are the same if they agree: the index follows from the rows. -/
theorem Built.content_inj {t t' : Table Float} (h : t.Built) (h' : t'.Built) :
    t.content = t'.content ↔ t = t' := by
  refine ⟨fun hc => ?_, congrArg content⟩
  obtain ⟨hsizes, hrows⟩ := content_eq_iff.1 hc
  have heq := Array.toList_inj.1 (Row.bits_injective.list_map hrows)
  rw [h.sound.assembled, h'.sound.assembled, hsizes, heq]

theorem search_eq {r : Interner (Table Float)} (hr : ∀ t ∈ r.contents, t.Built) {η : Type}
    (hashed : Table Float → η) (hash : η → UInt64) {t : Table Float} (h : t.Built) :
    r.search content hashed hash t = r.contents.findIdx? (· = t) :=
  Interner.search_eq (fun y hy => (Built.content_inj (hr y hy) h).1) hash

/-- Tables made from rows agree if the rows come to the same. -/
theorem content_eq_iff_listed {sizes sizes' : List Nat} {rows rows' : List (Row Float)}
    {t t' : Table Float} (h : ofRows sizes rows = .ok t) (h' : ofRows sizes' rows' = .ok t') :
    t.content = t'.content ↔
      sizes = sizes' ∧ (listed rows).map Row.bits = (listed rows').map Row.bits := by
  obtain ⟨-, -, -, rfl⟩ := ofRows_eq_ok_iff.1 h
  obtain ⟨-, -, -, rfl⟩ := ofRows_eq_ok_iff.1 h'
  exact content_eq_iff

end Table

end MinSum
