import LazyLisp.Completion
import LazyLisp.Proofs.Bindings
import LazyLisp.Proofs.Lexing.Lookahead
import Mathlib.Data.String.Basic

/-!
# What is proposed, and what becomes of it

The proposals for a text are the rests of names: of those that begin with the
last symbol of the text.  They are complete, so that a user who sees no proposal
knows that there is no such name, and each is there once.

A proposal is put at the cursor, while the symbol that it goes on may stand
before that, with blanks or a comment between them.  Put right behind the symbol
it spells the name, as the lexer reads it; put at the cursor it does so if the
symbol ends there.

## Main results

* `pairwise_sortedOnce` — texts put in order are strictly increasing.
* `mem_visibleNames_iff` — the names visible in a scope are those that resolve.
* `complete_exact` — the proposals are the rests of all known names.
* `complete_endsInName` — a proposal makes a name of the last symbol.
-/

namespace LazyLisp.Completion

open Token

/-! ## Texts in order -/

/-- A text is put where all texts before it are smaller and all behind it are
greater. -/
theorem pairwise_insertOnce {text : String} {texts : List String}
    (h : texts.Pairwise (· < ·)) : (insertOnce text texts).Pairwise (· < ·) := by
  induction texts with
  | nil => exact List.pairwise_singleton _ _
  | cons other rest ih =>
      obtain ⟨hall, hrest⟩ := List.pairwise_cons.mp h
      rw [insertOnce]
      by_cases hlt : text < other
      · rw [if_pos hlt]
        refine List.pairwise_cons.mpr ⟨List.forall_mem_cons.mpr ⟨hlt, fun t ht => ?_⟩, h⟩
        exact hlt.trans (hall t ht)
      · rw [if_neg hlt]
        by_cases heq : text = other
        · rwa [if_pos heq]
        · rw [if_neg heq]
          have hgreater : other < text := lt_of_le_of_ne (not_lt.mp hlt) (Ne.symm heq)
          refine List.pairwise_cons.mpr ⟨fun t ht => ?_, ih hrest⟩
          rcases mem_insertOnce.mp ht with rfl | hmem
          · exact hgreater
          · exact hall t hmem

/-- The texts are sorted, and each of them is there once. -/
theorem pairwise_sortedOnce (texts : List String) : (sortedOnce texts).Pairwise (· < ·) := by
  induction texts with
  | nil => exact .nil
  | cons text rest ih => exact pairwise_insertOnce ih

/-! ## Names -/

section Names

variable {σ : Store} {scope : Scope} {name typed added : String}

/-- The visible names are those that resolve. -/
theorem mem_visibleNames_iff : name ∈ σ.visibleNames scope ↔ σ.Resolves scope name :=
  List.mem_flatMap.trans Store.resolves_iff.symm

/-- The name means something in the scope: it is a primitive's, or it has a
value. -/
def Known (σ : Store) (scope : Scope) (name : String) : Prop :=
  (∃ p : Primitive, p.name = name) ∨ σ.Resolves scope name

/-- The known names are the visible ones and those of the primitives. -/
theorem mem_knownNames_iff : name ∈ knownNames σ scope ↔ Known σ scope name := by
  have hprimitive : name ∈ Primitive.all.map Primitive.name ↔ ∃ p : Primitive, p.name = name := by
    simp [Primitive.mem_all]
  rw [knownNames, List.mem_append, mem_visibleNames_iff, hprimitive, Known, or_comm]

/-- The names of primitives can be written. -/
theorem isSymbol_name (p : Primitive) : IsSymbol p.name.toList := by
  have hall : ∀ p ∈ Primitive.all, p.name.toList ≠ [] ∧
      longest p.name.toList = (.symbol, p.name.toList.length) := by
    decide
  obtain ⟨hne, hlongest⟩ := hall p p.mem_all
  exact isSymbol_of_longest hlongest hne

/-! ## Proposals -/

private theorem remainder?_eq_some_iff :
    remainder? typed name = some added ↔ typed ++ added = name ∧ added ≠ "" := by
  constructor
  · intro h
    have hname := append_of_remainder? h
    refine ⟨hname, ?_⟩
    rintro rfl
    rw [String.append_empty] at hname
    rw [hname, remainder?, if_neg fun hlonger => Nat.lt_irrefl _ hlonger.2] at h
    cases h
  · rintro ⟨rfl, hne⟩
    have hpos : 0 < added.toList.length :=
      List.length_pos_iff.mpr (String.toList_eq_nil_iff.not.mpr hne)
    have hlonger : typed.toList.isPrefixOf (typed ++ added).toList = true ∧
        typed.toList.length < (typed ++ added).toList.length := by
      rw [String.toList_append, List.isPrefixOf_iff_prefix, List.length_append]
      exact ⟨List.prefix_append _ _, by omega⟩
    rw [remainder?, if_pos hlonger, String.toList_append, List.drop_left, String.ofList_toList]

/-- The last token of the text is this symbol. -/
def LastSymbol (before : List Char) (typed : String) : Prop :=
  ∃ ts span, tokenize (String.ofList before) = .ok ts ∧ ts.getLast? = some ⟨.symbol typed, span⟩

/-- The function finds the symbol that is the last token before the cursor. -/
theorem lastSymbol?_eq_some_iff {before : List Char} :
    lastSymbol? before = some typed ↔ LastSymbol before typed := by
  rw [lastSymbol?, LastSymbol, tokenize, String.toList_ofList]
  cases scan 0 before with
  | error e => simp
  | ok ts =>
      cases hlast : ts.getLast? with
      | none => simp [hlast]
      | some t =>
          obtain ⟨kind, span⟩ := t
          cases kind <;> simp [hlast]

/-- The proposals are what the names have behind the last symbol. -/
theorem mem_proposals_iff {names : List String} {before : List Char}
    (h : LastSymbol before typed) :
    added ∈ proposals names before ↔ added ≠ "" ∧ typed ++ added ∈ names := by
  rw [proposals, lastSymbol?_eq_some_iff.mpr h]
  simp only [mem_sortedOnce, List.mem_filterMap, remainder?_eq_some_iff]
  constructor
  · rintro ⟨name, hname, rfl, hne⟩
    exact ⟨hne, hname⟩
  · rintro ⟨hne, hname⟩
    exact ⟨_, hname, rfl, hne⟩

/-- Nothing is proposed unless the last token is a symbol. -/
theorem exists_lastSymbol_of_mem {names : List String} {before : List Char}
    (h : added ∈ proposals names before) : ∃ typed, LastSymbol before typed := by
  cases hlast : lastSymbol? before with
  | none =>
      rw [proposals, hlast] at h
      cases h
  | some typed => exact ⟨typed, lastSymbol?_eq_some_iff.mp hlast⟩

private theorem pairwise_proposals (names : List String) (before : List Char) :
    (proposals names before).Pairwise (· < ·) := by
  rw [proposals]
  cases lastSymbol? before with
  | none => exact .nil
  | some typed => exact pairwise_sortedOnce _

/-- What is behind the cursor has no part in the proposals. -/
theorem complete_eq_proposals (σ : Store) (scope : Scope) (before after : List Char) :
    complete σ scope (before ++ after) (Text.byteLength before) =
      proposals (knownNames σ scope) before := by
  rw [complete, Text.beforeByte_byteLength]

end Names

section Complete

variable (σ : Store) (scope : Scope) (before after : List Char)

/-- With the cursor behind a symbol the proposals are the rests of all known
names that begin with it, each once and in increasing order, and anywhere else
there are none.  Names that have a value are the ones that are listed. -/
theorem complete_exact :
    (∀ typed, LastSymbol before typed →
      ∀ c, c ∈ complete σ scope (before ++ after) (Text.byteLength before) ↔
        c ≠ "" ∧ Known σ scope (typed ++ c)) ∧
    ((∀ typed, ¬ LastSymbol before typed) →
      complete σ scope (before ++ after) (Text.byteLength before) = []) ∧
    (complete σ scope (before ++ after) (Text.byteLength before)).Pairwise (· < ·) ∧
    (identifiers σ scope).Pairwise (· < ·) ∧
    ∀ name, name ∈ identifiers σ scope ↔ σ.Resolves scope name := by
  rw [complete_eq_proposals]
  refine ⟨fun typed h c => ?_, fun h => ?_, pairwise_proposals _ _, pairwise_sortedOnce _,
    fun name => ?_⟩
  · rw [mem_proposals_iff h, mem_knownNames_iff]
  · refine List.eq_nil_iff_forall_not_mem.mpr fun c hc => ?_
    obtain ⟨typed, htyped⟩ := exists_lastSymbol_of_mem hc
    exact h typed htyped
  · rw [identifiers, mem_sortedOnce, mem_visibleNames_iff]

end Complete

/-- Two frames bind the same name, another name is a primitive's as well, and
behind a bracket nothing is proposed. -/
theorem complete_exact_shadowed :
    LastSymbol "(d".toList "d" ∧
    "é" ∈ complete ((Store.empty.addFrame [("def", .nil), ("dé", .nil)]).addFrame [("dé", .nil)])
      (.inner 1 (.global 0)) ("(d".toList ++ " 1)".toList) (Text.byteLength "(d".toList) ∧
    "" ∉ complete ((Store.empty.addFrame [("def", .nil), ("dé", .nil)]).addFrame [("dé", .nil)])
      (.inner 1 (.global 0)) ("(d".toList ++ " 1)".toList) (Text.byteLength "(d".toList) ∧
    (∀ typed, ¬ LastSymbol "(d)".toList typed) ∧
    complete Store.empty (.global 0) ("(d)".toList ++ []) (Text.byteLength "(d)".toList) = [] := by
  have hsymbol : LastSymbol "(d".toList "d" :=
    ⟨[⟨.leftParen, ⟨0, 1⟩⟩, ⟨.symbol "d", ⟨1, 2⟩⟩], ⟨1, 2⟩, by with_unfolding_all rfl, rfl⟩
  have hbracket : ∀ typed, ¬ LastSymbol "(d)".toList typed := by
    rintro typed ⟨ts, span, htokens, hlast⟩
    have hread : tokenize (String.ofList "(d)".toList) =
        .ok [⟨.leftParen, ⟨0, 1⟩⟩, ⟨.symbol "d", ⟨1, 2⟩⟩, ⟨.rightParen, ⟨2, 3⟩⟩] := by
      with_unfolding_all rfl
    cases hread.symm.trans htokens
    cases hlast
  have hmem := (complete_exact
    ((Store.empty.addFrame [("def", .nil), ("dé", .nil)]).addFrame [("dé", .nil)])
    (.inner 1 (.global 0)) "(d".toList " 1)".toList).1 "d" hsymbol
  refine ⟨hsymbol, (hmem "é").mpr ⟨by decide, .inr (by decide)⟩,
    fun h => ((hmem "").mp h).1 rfl, hbracket, ?_⟩
  exact (complete_exact Store.empty (.global 0) "(d)".toList []).2.1 hbracket

example : complete ((Store.empty.addFrame [("def", .nil), ("dé", .nil)]).addFrame [("dé", .nil)])
    (.inner 1 (.global 0)) "(d 1)".toList 2 = ["ef", "o", "é"] := by
  with_unfolding_all rfl

/-! ## Accepting a proposal -/

/-- The last token of the text is a symbol that ends where the text does, and
means something in the scope. -/
def EndsInName (σ : Store) (scope : Scope) (text : List Char) : Prop :=
  ∃ ts start name, tokenize (String.ofList text) =
    .ok (ts ++ [⟨.symbol name, ⟨start, Text.byteLength text⟩⟩]) ∧ Known σ scope name

section Accept

variable {σ : Store} {scope : Scope} {before after : List Char} {c : String}

private theorem isSymbol_of_known (hnames : ∀ name, σ.Resolves scope name → IsSymbol name.toList)
    {name : String} (h : Known σ scope name) : IsSymbol name.toList := by
  rcases h with ⟨p, rfl⟩ | hresolves
  · exact isSymbol_name p
  · exact hnames name hresolves

/-- Put behind the last token of the text before the cursor, from which only
blanks and comments separate the cursor, a proposal makes a known name of that
token.  If the token ends at the cursor, this is where the proposal is put. -/
theorem complete_endsInName (hnames : ∀ name, σ.Resolves scope name → IsSymbol name.toList)
    (hc : c ∈ complete σ scope (before ++ after) (Text.byteLength before)) :
    ∃ ts t word space, tokenize (String.ofList before) = .ok (ts ++ [t]) ∧
      before = word ++ space ∧ t.span.stop = Text.byteLength word ∧ gap.Matches space ∧
      EndsInName σ scope (word ++ c.toList) ∧
      (t.span.stop = Text.byteLength before → EndsInName σ scope (before ++ c.toList)) := by
  rw [complete_eq_proposals] at hc
  obtain ⟨typed, hlast⟩ := exists_lastSymbol_of_mem hc
  have hknown := mem_knownNames_iff.mp ((mem_proposals_iff hlast).mp hc).2
  obtain ⟨all, span, htokens, hall⟩ := hlast
  obtain ⟨ts, rfl⟩ := List.getLast?_eq_some_iff.mp hall
  have hscan := htokens
  rw [tokenize, String.toList_ofList] at hscan
  obtain ⟨front, space, htext, hspace, hspan, hexchange⟩ := exists_last_symbol hscan
  have hlonger : typed.toList <+: (typed ++ c).toList := by
    rw [String.toList_append]
    exact List.prefix_append _ _
  have hname := hexchange _ (isSymbol_of_known hnames hknown) hlonger
  have hends : EndsInName σ scope (front ++ typed.toList ++ c.toList) := by
    refine ⟨ts, Text.byteLength front, typed ++ c, ?_, hknown⟩
    rw [tokenize, String.toList_ofList, List.append_assoc, ← String.toList_append]
    exact hname
  refine ⟨ts, _, front ++ typed.toList, space, htokens, htext, ?_, hspace, hends, fun hstop => ?_⟩
  · rw [hspan]
  · have hnil : space = [] := by
      by_contra hne
      have hpos := Text.byteLength_pos hne
      rw [htext, hspan, Text.byteLength_append _ space] at hstop
      simp only at hstop
      omega
    rwa [htext, hnil, List.append_nil]

end Accept

/-- What is read as a minus sign behind an integer begins a name. -/
theorem complete_endsInName_minus :
    (∀ name, (Store.empty.addFrame [("-5x", .nil)]).Resolves (.global 0) name →
      IsSymbol name.toList) ∧
    "5x" ∈ complete (Store.empty.addFrame [("-5x", .nil)]) (.global 0)
      ("5-".toList ++ ")".toList) (Text.byteLength "5-".toList) ∧
    EndsInName (Store.empty.addFrame [("-5x", .nil)]) (.global 0)
      ("5-".toList ++ "5x".toList) := by
  have hnames : ∀ name, (Store.empty.addFrame [("-5x", .nil)]).Resolves (.global 0) name →
      IsSymbol name.toList := by
    intro name hname
    obtain ⟨f, hf, hmem⟩ := Store.resolves_iff.mp hname
    cases List.mem_singleton.mp hf
    cases List.mem_singleton.mp hmem
    exact isSymbol_of_longest (by decide) (by decide)
  have hproposed : complete (Store.empty.addFrame [("-5x", .nil)]) (.global 0)
      ("5-".toList ++ ")".toList) (Text.byteLength "5-".toList) = ["5x"] := by
    with_unfolding_all rfl
  have hmem := hproposed ▸ List.mem_singleton_self "5x"
  have hread : tokenize (String.ofList "5-".toList) =
      .ok ([⟨.integer 5, ⟨0, 1⟩⟩] ++ [⟨.symbol "-", ⟨1, 2⟩⟩]) := by
    with_unfolding_all rfl
  obtain ⟨ts, t, word, space, htokens, -, -, -, -, hends⟩ := complete_endsInName hnames hmem
  have hlists := Except.ok.inj (hread.symm.trans htokens)
  cases (List.append_inj' hlists rfl).2
  exact ⟨hnames, hmem, hends rfl⟩

/-- Behind a blank the proposal is read as a symbol of its own, though nothing
has that name. -/
theorem not_endsInName_blank :
    (∀ name, ¬ Store.empty.Resolves (.global 0) name) ∧
    "ef" ∈ complete Store.empty (.global 0) ("d ".toList ++ []) (Text.byteLength "d ".toList) ∧
    ¬ EndsInName Store.empty (.global 0) ("d ".toList ++ "ef".toList) := by
  have hunbound : ∀ name, ¬ Store.empty.Resolves (.global 0) name :=
    fun name => Store.not_resolves_of_find?_eq_none rfl
  have hproposed : complete Store.empty (.global 0) ("d ".toList ++ [])
      (Text.byteLength "d ".toList) = ["ef", "o"] := by
    with_unfolding_all rfl
  have hread : tokenize (String.ofList ("d ".toList ++ "ef".toList)) =
      .ok ([⟨.symbol "d", ⟨0, 1⟩⟩] ++ [⟨.symbol "ef", ⟨2, 4⟩⟩]) := by
    with_unfolding_all rfl
  refine ⟨hunbound, hproposed ▸ .head _, ?_⟩
  rintro ⟨ts, start, name, htokens, hprimitive | hresolves⟩
  · have hlists := Except.ok.inj (hread.symm.trans htokens)
    cases (List.append_inj' hlists rfl).2
    obtain ⟨p, hp⟩ := hprimitive
    have hnone : ∀ p ∈ Primitive.all, p.name ≠ "ef" := by decide
    exact hnone p p.mem_all hp
  · exact hunbound name hresolves

end LazyLisp.Completion
