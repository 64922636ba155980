import LazyLisp.Proofs.Direct.Settling
import LazyLisp.Proofs.FrameIsolation
import LazyLisp.Proofs.Mirror.Evaluation

/-!
# Empty scopes cannot be observed

A sequence evaluates each of its forms in a scope of its own, and so does a
definition.  Nothing is ever bound in these scopes: definitions go to the
global frame and parameters to frames of their own.  So it should make no
difference whether a form is evaluated in a scope or in an empty one inside it.

The two evaluations do not have the same store, since all frames that are
opened later have other numbers, and functions and deferred rests keep scopes
with these frames.  The mirror of the first evaluation leaves the empty frame
out of all scopes and closes the gap in the numbers.  What is left of a value
when its scopes are erased, its text, what was printed and what is bound in the
frames that were there before are then the same.

## Main results

* `withoutFrame_lawful` — the mirror that leaves a frame out.
* `evaluate_child_ends` — an evaluation in an empty scope and one outside.
* `Forest.observe_child` — an observer cannot tell them apart.
* `Forest.shows_append_iff` — a sequence at the end of another one may be
  flattened.
* `Workspace.observe_child_eq` — both for reachable workspaces.
-/

namespace LazyLisp

open Evaluation

/-! ## Leaving a frame out -/

/-- The number of a frame if the hole is left out. -/
def closeGap (hole f : Nat) : Nat := if f < hole then f else f - 1

/-- Frames before the hole keep their numbers. -/
theorem closeGap_of_lt {hole f : Nat} (h : f < hole) : closeGap hole f = f := if_pos h

/-- Frames behind the hole move up by one. -/
theorem closeGap_of_gt {hole f : Nat} (h : hole < f) : closeGap hole f = f - 1 :=
  if_neg (Nat.not_lt_of_gt h)

/-- Other frames keep apart. -/
theorem closeGap_eq_iff {hole f g : Nat} (hf : f ≠ hole) (hg : g ≠ hole) :
    closeGap hole f = closeGap hole g ↔ f = g := by
  unfold closeGap
  split <;> split <;> omega

private theorem closeGap_lt_iff {hole f size : Nat} (hhole : hole < size + 1) (hf : f ≠ hole) :
    closeGap hole f < size ↔ f < size + 1 := by
  unfold closeGap
  split <;> omega

/-- The scope without the frame, with the gap in the numbers closed. -/
def Scope.without (hole : FrameId) : Scope → Scope
  | .global f => .global (closeGap hole f)
  | .inner f outer =>
      if f = hole then outer.without hole else .inner (closeGap hole f) (outer.without hole)

private theorem Scope.rootFrame_without (hole : FrameId) (s : Scope) :
    (s.without hole).rootFrame = closeGap hole s.rootFrame := by
  induction s with
  | global f => rfl
  | inner f outer ih =>
      rw [without]
      split <;> exact ih

/-- A scope of earlier frames stays as it is. -/
theorem Scope.without_eq_self {hole : FrameId} {s : Scope} (h : ∀ f ∈ s.frames, f < hole) :
    s.without hole = s := by
  induction s with
  | global f =>
      have hf : f < hole := h f (List.mem_singleton_self f)
      rw [without, closeGap_of_lt hf]
  | inner f outer ih =>
      obtain ⟨hf, houter⟩ := List.forall_mem_cons.mp h
      rw [without, if_neg (Nat.ne_of_lt hf), closeGap_of_lt hf, ih houter]

/-- The second store is the first one without an empty frame. -/
structure Store.Without (hole : FrameId) (σ τ : Store) : Prop where
  size : σ.frames.size = τ.frames.size + 1
  hole_lt : hole < σ.frames.size
  empty : σ.bindings hole = []
  bindings : ∀ f, f ≠ hole →
    τ.bindings (closeGap hole f) = (σ.bindings f).mapScopes (Scope.without hole)
  closures : τ.closures = σ.closures
  printed : τ.printed = σ.printed

namespace Store.Without

variable {hole : FrameId} {σ τ : Store}

/-- The next frame of the first store goes with the next one of the second. -/
theorem closeGap_size (h : σ.Without hole τ) : closeGap hole σ.frames.size = τ.frames.size := by
  rw [closeGap_of_gt h.hole_lt, h.size, Nat.add_sub_cancel]

/-- A name has the same meaning, if the scope has a global frame that is not
left out. -/
theorem find? (h : σ.Without hole τ) (name : String) {s : Scope} (hs : s.rootFrame ≠ hole) :
    τ.find? name (s.without hole) =
      (σ.find? name s).map (Value.mapScopes (Scope.without hole)) := by
  induction s with
  | global f =>
      show (τ.bindings (closeGap hole f)).find? name = _
      rw [h.bindings f hs, Bindings.find?_mapScopes]
      rfl
  | inner f outer ih =>
      have houter := ih hs
      rw [Scope.without, Store.find?_inner]
      split
      · rename_i hf
        rw [hf, h.empty, houter]
        rfl
      · rename_i hf
        rw [Store.find?_inner, h.bindings f hf, Bindings.find?_mapScopes, houter, Option.map_or]

private theorem addFrame (h : σ.Without hole τ) (b : Bindings) :
    (σ.addFrame b).Without hole (τ.addFrame (b.mapScopes (Scope.without hole))) where
  size := by rw [size_addFrame, size_addFrame, h.size]
  hole_lt := by
    rw [size_addFrame]
    exact Nat.lt_succ_of_lt h.hole_lt
  empty := by
    rw [bindings_addFrame, if_neg (Nat.ne_of_lt h.hole_lt)]
    exact h.empty
  bindings f hf := by
    have hnew : closeGap hole f = τ.frames.size ↔ f = σ.frames.size := by
      rw [← h.closeGap_size]
      exact closeGap_eq_iff hf (Nat.ne_of_gt h.hole_lt)
    rw [bindings_addFrame, bindings_addFrame]
    by_cases hlast : f = σ.frames.size
    · rw [if_pos hlast, if_pos (hnew.mpr hlast)]
    · rw [if_neg hlast, if_neg fun heq => hlast (hnew.mp heq), h.bindings f hf]
  closures := h.closures
  printed := h.printed

private theorem define (h : σ.Without hole τ) {f : FrameId} (hf : f ≠ hole) (name : String)
    (v : Value) : (σ.define f name v).Without hole
      (τ.define (closeGap hole f) name (v.mapScopes (Scope.without hole))) where
  size := by rw [size_define, size_define, h.size]
  hole_lt := by
    rw [size_define]
    exact h.hole_lt
  empty := by
    rw [bindings_define_of_ne hf]
    exact h.empty
  bindings g hg := by
    have hin : closeGap hole g < τ.frames.size ↔ g < σ.frames.size := by
      rw [h.size]
      exact closeGap_lt_iff (h.size ▸ h.hole_lt) hg
    simp only [bindings_define, closeGap_eq_iff hf hg, hin, h.bindings g hg]
    split
    · rw [Bindings.put_mapScopes]
    · rfl
  closures := h.closures
  printed := h.printed

/-- An empty frame that was just added. -/
theorem of_addFrame (h : ∀ v, σ.Holds v → v.mapScopes (Scope.without σ.frames.size) = v) :
    (σ.addFrame []).Without σ.frames.size σ where
  size := size_addFrame
  hole_lt := by
    rw [size_addFrame]
    exact Nat.lt_succ_self _
  empty := by rw [bindings_addFrame, if_pos rfl]
  bindings f hf := by
    rw [bindings_addFrame, if_neg hf, Bindings.mapScopes_eq_self fun name v hv => h v ⟨f, name, hv⟩]
    rcases Nat.lt_or_gt_of_ne hf with hlt | hgt
    · rw [closeGap_of_lt hlt]
    · -- both frames are beyond the end
      rw [closeGap_of_gt hgt, bindings_of_size_le (Nat.le_of_lt hgt),
        bindings_of_size_le (Nat.le_sub_one_of_lt hgt)]
  closures := rfl
  printed := rfl

end Store.Without

/-- The mirror that leaves a frame out. -/
def withoutFrame (hole : FrameId) : Mirror where
  image := Scope.without hole
  Linked := Store.Without hole

/-- A frame may be left out of a tree that it is not the root of. -/
theorem withoutFrame_lawful {hole r : FrameId} (hr : r ≠ hole) :
    (withoutFrame hole).Lawful (tree r) where
  closure hv := hv.here _ rfl
  root s := congrArg Scope.global (Scope.rootFrame_without hole s)
  lookup := by
    intro w σ τ s name _ hcode hlink
    exact hlink.find? name fun hroot => hr (hcode.1.2.symm.trans hroot)
  openInner := by
    intro w σ τ s b _ _ hlink
    refine ⟨?_, hlink.addFrame b⟩
    show Scope.without hole (.inner σ.frames.size s) = .inner τ.frames.size (s.without hole)
    rw [Scope.without, if_neg (Nat.ne_of_gt hlink.hole_lt), hlink.closeGap_size]
  define := by
    intro w σ τ s name v _ hs hlink
    show Store.Without hole _ (τ.define (s.without hole).rootFrame name _)
    rw [Scope.rootFrame_without]
    exact hlink.define (fun hroot => hr (hs.2.symm.trans hroot)) name v
  newClosure hlink :=
    ⟨hlink.closures, hlink.size, hlink.hole_lt, hlink.empty, hlink.bindings,
      congrArg (· + 1) hlink.closures, hlink.printed⟩
  print line hlink :=
    ⟨hlink.size, hlink.hole_lt, hlink.empty, hlink.bindings, hlink.closures,
      congrArg (· ++ line ++ "\n") hlink.printed⟩

/-! ## An evaluation inside and one outside -/

/-- An evaluation in an empty scope that was just opened ends as one outside of
it does, up to the frame. -/
theorem evaluate_child_ends {opened : Scope → Prop} {σ : Store} {s : Scope} {form : Value}
    (h : Forest opened σ) (hs : opened s) (hform : form.Written) (fuel : Nat) :
    (withoutFrame σ.frames.size).Ends (withoutFrame σ.frames.size).value
      (evaluate fuel form (σ.openInner s []).1 (σ.openInner s []).2) (evaluate fuel form s σ) := by
  have hframes {c : Scope} (hc : opened c) : c.without σ.frames.size = c :=
    Scope.without_eq_self fun f hf => h.lt_of_mem_frames hc hf
  have hlink : (σ.addFrame []).Without σ.frames.size σ := by
    refine .of_addFrame fun v hv => Value.mapScopes_eq_self v fun c hc => ?_
    exact hframes (h.opened_of_keeps hv hc)
  have hr : s.rootFrame ≠ σ.frames.size :=
    Nat.ne_of_lt (h.lt_of_mem_frames hs s.rootFrame_mem_frames)
  -- the world with the new scope
  obtain ⟨w, -, hkeeps, hcode⟩ := (tree_lawful s.rootFrame).openInner
    (w := ⟨opened, σ, h⟩) (σ := σ) rfl ⟨hs, rfl⟩
  have hends := Discipline.evaluate_mirrors (tree_lawful s.rootFrame) (withoutFrame_lawful hr) fuel
    w _ form (hcode form ⟨⟨hs, rfl⟩, hform.keepsOnly⟩) _ σ hkeeps hlink
  have himage : (withoutFrame σ.frames.size).image (σ.openInner s []).1 = s := by
    show Scope.without σ.frames.size (.inner σ.frames.size s) = s
    rw [Scope.without, if_pos rfl, hframes hs]
  have hvalue : (withoutFrame σ.frames.size).value form = form :=
    Value.mapScopes_eq_self form fun c hc =>
      (hform.keepsOnly (P := fun _ => False)).of_keeps hc |>.elim
  rw [himage, hvalue] at hends
  exact hends

/-! ## What an observer sees -/

/-- The one scope that stands for all of them. -/
def Scope.erased : Scope → Scope := fun _ => .global 0

/-- What is seen of an evaluation that has ended.  The scopes kept in values
cannot be seen, and of the store only the frames that were there before. -/
structure Observation where
  answer : Except Fault Value
  text : String
  printed : String
  bindings : List Bindings

/-- What is bound in the first frames, less the scopes. -/
def Store.erasedBindings (σ : Store) (frames : Nat) : List Bindings :=
  (List.range frames).map fun f => (σ.bindings f).mapScopes Scope.erased

/-- What is seen at the end with so many frames at the start. -/
def Outcome.observe (frames : Nat) : Outcome Fault Value → Option Observation
  | .done v σ => some
      ⟨.ok (v.mapScopes Scope.erased), v.text, σ.printed, σ.erasedBindings frames⟩
  | .failed fault σ => some
      ⟨.error (fault.mapScopes Scope.erased), fault.message, σ.printed, σ.erasedBindings frames⟩
  | .exhausted => none

/-- No frame before the hole looks different. -/
theorem Store.Without.erasedBindings_eq {hole : FrameId} {σ τ : Store} (h : σ.Without hole τ)
    {frames : Nat} (hframes : frames ≤ hole) :
    τ.erasedBindings frames = σ.erasedBindings frames := by
  refine List.map_congr_left fun f hf => ?_
  have hlt : f < hole := Nat.lt_of_lt_of_le (List.mem_range.mp hf) hframes
  have hbindings := h.bindings f (Nat.ne_of_lt hlt)
  rw [closeGap_of_lt hlt] at hbindings
  rw [hbindings, Bindings.mapScopes_mapScopes]
  rfl

private theorem observe_eq_of_ends {hole : FrameId} {o o' : Outcome Failure Value} {frames : Nat}
    (hframes : frames ≤ hole)
    (h : (withoutFrame hole).Ends (withoutFrame hole).value o o') :
    o'.cause.observe frames = o.cause.observe frames := by
  cases h with
  | done v hlink =>
      show some (Observation.mk (.ok ((v.mapScopes _).mapScopes _)) (v.mapScopes _).text _ _) = _
      rw [Value.mapScopes_mapScopes, Value.text_mapScopes, hlink.printed,
        hlink.erasedBindings_eq hframes]
      rfl
  | failed e hlink =>
      show some (Observation.mk (.error ((e.fault.mapScopes _).mapScopes _))
        (e.fault.mapScopes _).message _ _) = _
      rw [Fault.mapScopes_mapScopes, Fault.message_mapScopes, hlink.printed,
        hlink.erasedBindings_eq hframes]
      rfl
  | exhausted => rfl

/-- Sequences are written down with their forms. -/
theorem Value.Written.sequenceForm {forms : List Value} (h : ∀ form ∈ forms, form.Written)
    (span : Span) : (Value.sequenceForm forms span).Written :=
  (written_symbol _).call h span

section Forest

variable {opened : Scope → Prop} {σ : Store} {s : Scope} {frames : Nat}

private theorem Forest.openInner (h : Forest opened σ) (hs : opened s) :
    Forest (fun c => opened c ∨ c = (σ.openInner s []).1) (σ.openInner s []).2 := by
  refine h.addFrame rfl (fun f outer heq => ?_) (by simp)
  cases heq
  exact hs

/-- In an empty scope inside of another one a form does what it does outside,
and with the same fuel. -/
theorem Forest.observe_child (h : Forest opened σ) (hs : opened s)
    (hframes : frames ≤ σ.frames.size) {form : Value} (hform : form.Written) (fuel : Nat) :
    (evaluate fuel form (σ.openInner s []).1 (σ.openInner s []).2).cause.observe frames =
      (evaluate fuel form s σ).cause.observe frames :=
  (observe_eq_of_ends hframes (evaluate_child_ends h hs hform fuel)).symm

/-! ## Nested sequences -/

/-- With enough fuel the computation ends and this is seen. -/
def Shows (frames : Nat) (x : Nat → Eval Value) (σ : Store) (o : Observation) : Prop :=
  ∃ c, Settles x σ c ∧ c.observe frames = some o

/-- What is seen is what some amount of fuel shows. -/
theorem shows_iff {x : Nat → Eval Value} {o : Observation} :
    Shows frames x σ o ↔ ∃ n, (x n σ).cause.observe frames = some o := by
  constructor
  · rintro ⟨c, ⟨-, n, hn⟩, hobserve⟩
    exact ⟨n, hn ▸ hobserve⟩
  · rintro ⟨n, hobserve⟩
    refine ⟨_, ⟨fun hnone => ?_, n, rfl⟩, hobserve⟩
    rw [hnone] at hobserve
    cases hobserve

/-- A sequence shows what its other forms show after the first one, or how
that one fails. -/
theorem shows_cons_iff {form : Value} {rest : List Value} (hrest : rest ≠ []) {o : Observation} :
    Shows frames (sequence (form :: rest) s) σ o ↔
      (∃ v τ, Settles (fun n => evaluate n form (σ.openInner s []).1) (σ.openInner s []).2
        (.done v τ) ∧ Shows frames (sequence rest s) τ o) ∨
      ∃ fault τ, Settles (fun n => evaluate n form (σ.openInner s []).1) (σ.openInner s []).2
        (.failed fault τ) ∧ (Outcome.failed fault τ).observe frames = some o := by
  constructor
  · rintro ⟨c, hc, hobserve⟩
    rcases (settles_cons_iff hrest).mp hc with ⟨v, τ, hfirst, hafter⟩ | ⟨fault, τ, hfirst, rfl⟩
    · exact .inl ⟨v, τ, hfirst, c, hafter, hobserve⟩
    · exact .inr ⟨fault, τ, hfirst, hobserve⟩
  · rintro (⟨v, τ, hfirst, c, hafter, hobserve⟩ | ⟨fault, τ, hfirst, hobserve⟩)
    · exact ⟨c, (settles_cons_iff hrest).mpr (.inl ⟨v, τ, hfirst, hafter⟩), hobserve⟩
    · exact ⟨_, (settles_cons_iff hrest).mpr (.inr ⟨fault, τ, hfirst, rfl⟩), hobserve⟩

/-- A form `do` shows what its forms show one after the other. -/
theorem shows_sequenceForm_iff {forms : List Value} {span : Span} {o : Observation} :
    Shows frames (fun n => evaluate n (.sequenceForm forms span) s) σ o ↔
      Shows frames (sequence forms s) σ o :=
  exists_congr fun _ => and_congr_left fun _ => settles_sequence_iff

/-- The last form of a sequence needs no scope of its own. -/
theorem Forest.shows_singleton_iff (h : Forest opened σ) (hs : opened s)
    (hframes : frames ≤ σ.frames.size) {form : Value} (hform : form.Written) {o : Observation} :
    Shows frames (sequence [form] s) σ o ↔ Shows frames (fun n => evaluate n form s) σ o := by
  rw [shows_iff, shows_iff]
  refine exists_congr fun n => ?_
  show (evaluate n form (σ.openInner s []).1 (σ.openInner s []).2).cause.observe frames = some o ↔
    (evaluate n form s σ).cause.observe frames = some o
  rw [h.observe_child hs hframes hform n]

/-- A sequence at the end of another one is a part of it. -/
theorem Forest.shows_append_iff (h : Forest opened σ) (hs : opened s)
    (hframes : frames ≤ σ.frames.size) {forms last : List Value} (span : Span)
    (hforms : ∀ form ∈ forms, form.Written) (hlast : ∀ form ∈ last, form.Written)
    (hne : last ≠ []) {o : Observation} :
    Shows frames (sequence (forms ++ [.sequenceForm last span]) s) σ o ↔
      Shows frames (sequence (forms ++ last) s) σ o := by
  induction forms generalizing opened σ with
  | nil =>
      rw [List.nil_append, List.nil_append,
        h.shows_singleton_iff hs hframes (.sequenceForm hlast span), shows_sequenceForm_iff]
  | cons form rest ih =>
      obtain ⟨hform, hrest⟩ := List.forall_mem_cons.mp hforms
      rw [List.cons_append, List.cons_append, shows_cons_iff (by simp),
        shows_cons_iff (by simp [hne])]
      -- the first form is the same, and it leaves a forest for the others
      refine or_congr (exists_congr fun v => exists_congr fun τ => and_congr_right ?_) .rfl
      rintro ⟨-, n, hn⟩
      have hends := Outcome.eq_done_of_cause hn
      obtain ⟨opened', hmono, hforest, hchanges, -⟩ :=
        evaluate_forest (h.openInner hs) (.inr rfl) hform (.inl ⟨v, hends⟩)
      have hsize : frames ≤ τ.frames.size :=
        Nat.le_trans hframes (Nat.le_trans (Nat.le.intro Store.size_addFrame.symm) hchanges.size_le)
      exact ih hforest (hmono s (.inl hs)) hsize hrest

end Forest

namespace Workspace

variable {w : Workspace} {s : Scope}

/-- In every reachable workspace and every scope in use: a form that was
written down shows the same in a new empty scope inside of this one as in the
scope itself, whatever the fuel; as the only form of a sequence it shows what
it shows alone; and a sequence that ends with another one shows what it shows
with the forms of that one in its place. -/
theorem observe_child_eq (hw : w.Reachable) (hs : w.InUse s) :
    (∀ form : Value, form.Written → ∀ fuel,
      (evaluate fuel form (w.store.openInner s []).1 (w.store.openInner s []).2).cause.observe
        w.store.frames.size = (evaluate fuel form s w.store).cause.observe w.store.frames.size) ∧
    (∀ form : Value, form.Written → ∀ span o,
      Shows w.store.frames.size (fun n => evaluate n (.sequenceForm [form] span) s) w.store o ↔
        Shows w.store.frames.size (fun n => evaluate n form s) w.store o) ∧
    (∀ forms last : List Value, (∀ form ∈ forms, form.Written) → (∀ form ∈ last, form.Written) →
      last ≠ [] → ∀ outer inner span o,
      Shows w.store.frames.size
          (fun n => evaluate n (.sequenceForm (forms ++ [.sequenceForm last inner]) outer) s)
          w.store o ↔
        Shows w.store.frames.size (fun n => evaluate n (.sequenceForm (forms ++ last) span) s)
          w.store o) := by
  obtain ⟨opened, hcharted⟩ := hw.charted
  have hopened := hcharted.opened_of_inUse hs
  have hframes := Nat.le_refl w.store.frames.size
  refine ⟨?_, ?_, ?_⟩
  · intro form hform fuel
    exact hcharted.forest.observe_child hopened hframes hform fuel
  · intro form hform span o
    rw [shows_sequenceForm_iff, hcharted.forest.shows_singleton_iff hopened hframes hform]
  · intro forms last hforms hlast hne outer inner span o
    rw [shows_sequenceForm_iff, shows_sequenceForm_iff]
    exact hcharted.forest.shows_append_iff hopened hframes inner hforms hlast hne

/-- A function keeps the new scope, or the scope of the sequence that it stands
in, and this cannot be seen. -/
theorem observe_child_eq_function :
    let w : Workspace := start 1 false
    let form : Value := .call (.symbol "fn") [.vector [], .symbol "x"] ⟨0, 9⟩
    let function (scope : Scope) : Value := .closure 0 [] (.symbol "x") scope
    let flat : Value := .sequenceForm [form, form] ⟨0, 23⟩
    let nested : Value := .sequenceForm [form, .sequenceForm [form] ⟨14, 28⟩] ⟨0, 28⟩
    w.Reachable ∧ w.InUse (.global 0) ∧ form.Written ∧
      evaluate 2 form (.inner 1 (.global 0)) (w.store.addFrame []) =
        .done (function (.inner 1 (.global 0))) ⟨#[[], []], 1, ""⟩ ∧
      evaluate 2 form (.global 0) w.store = .done (function (.global 0)) ⟨#[[]], 1, ""⟩ ∧
      (evaluate 2 form (.inner 1 (.global 0)) (w.store.addFrame [])).cause.observe 1 =
        (evaluate 2 form (.global 0) w.store).cause.observe 1 ∧
      ∃ o, Shows 1 (fun n => evaluate n nested (.global 0)) w.store o ∧
        Shows 1 (fun n => evaluate n flat (.global 0)) w.store o := by
  intro w form function flat nested
  have hw : w.Reachable := .start 1 false
  have hs : w.InUse (.global 0) := .scope (List.mem_singleton_self _)
  have hform : form.Written := by
    refine .call (Value.written_symbol _) (List.forall_mem_cons.mpr ⟨?_, ?_⟩) _
    · exact .of_parts_eq_nil rfl rfl
    · exact List.forall_mem_singleton.mpr (Value.written_symbol "x")
  have hforms : ∀ u ∈ [form], u.Written := List.forall_mem_singleton.mpr hform
  obtain ⟨hchild, -, hnested⟩ := observe_child_eq hw hs
  refine ⟨hw, hs, hform, ?_, ?_, hchild form hform 2, ?_⟩
  · with_unfolding_all rfl
  · with_unfolding_all rfl
  · have hflat : Shows 1 (fun n => evaluate n flat (.global 0)) w.store _ :=
      shows_iff.mpr ⟨4, by with_unfolding_all rfl⟩
    exact ⟨_, (hnested [form] [form] hforms hforms nofun _ _ _ _).mpr hflat, hflat⟩

end Workspace

end LazyLisp
