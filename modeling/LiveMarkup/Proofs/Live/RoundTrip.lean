import LiveMarkup.Proofs.Live.Acceptance
import LiveMarkup.Proofs.Live.ReadBack
import LiveMarkup.Proofs.Live.Success
import LiveMarkup.Proofs.Patch.Spells

/-!
# Compiling what was written

Markup that is compiled, replayed into an empty tree and written again is in a form that
compiles to the same program. The way once round brings it there: the elements that were
read are tidy, so the tree that the program denotes is written as markup in which the same
elements are read, in the same order, and nothing else.

What remains is the choice of keys. It goes by the given keys and the number of opens, which
are the same both times, so numbered keys come out the same; keys that are drawn are others
each time, as far as there are numbers left.
-/

namespace LiveMarkup

open Fragment (Tidy Apart joinText_of_apart)
open Live (Kind normalAll)

namespace Patch

variable {source : Source}

theorem Denotes.isSkip_eq_false {q : List (Instruction Key)} {forest : List (Rose Kind)}
    (h : Denotes q forest) : ∀ i ∈ q, i.isSkip = false := by
  induction h with
  | nil => exact nofun
  | text content _ ih =>
    intro i hi
    rcases List.mem_cons.mp hi with rfl | hi
    · rfl
    · exact ih i hi
  | element name key attributes _ _ ihb ih =>
    intro i hi
    simp only [List.mem_cons, List.mem_append] at hi
    rcases hi with rfl | hi | rfl | hi
    · rfl
    · exact ihb i hi
    · rfl
    · exact ih i hi

/-- Whatever keys are chosen, the spelling of tidy trees denotes a forest that is written as
these trees. -/
theorem Spells.exists_denotes {idAttribute : String} {trees : List (Rose Fragment.Kind)}
    {program : List Sketch} (h : Spells idAttribute trees program) (htidy : ∀ r ∈ trees, Tidy r)
    (hapart : trees.IsChain Apart) {q : List (Instruction Key)}
    (hq : q.map (·.mapKey fun _ => ()) = program.map (·.mapKey fun _ => ())) :
    ∃ forest, Denotes q forest ∧ normalAll forest = trees := by
  induction h generalizing q with
  | nil =>
    cases List.map_eq_nil_iff.mp hq
    exact ⟨[], .nil, rfl⟩
  | @text data below rest program _ ih =>
    obtain ⟨i, rest, rfl, hi, hrest⟩ := List.map_eq_cons_iff.mp hq
    cases Instruction.mapKey_eq_text hi
    obtain ⟨hdata, rfl⟩ := (htidy _ List.mem_cons_self).neat
    rw [List.isChain_cons] at hapart
    obtain ⟨forest, hdenotes, rfl⟩ := ih (fun r hr => htidy r (List.mem_cons_of_mem _ hr))
      hapart.2 hrest
    refine ⟨_, .text data hdenotes, ?_⟩
    exact joinText_of_apart hdata hapart.1
  | tag name attributes _ _ ihb ih =>
    rw [List.map_cons, List.map_append, List.map_cons] at hq
    obtain ⟨i, tail, rfl, hi, htail⟩ := List.map_eq_cons_iff.mp hq
    obtain ⟨key, rfl⟩ := Instruction.mapKey_eq_openTag hi
    obtain ⟨qbody, after, rfl, hbody, hafter⟩ := List.map_eq_append_iff.mp htail
    obtain ⟨j, rest, rfl, hj, hrest⟩ := List.map_eq_cons_iff.mp hafter
    cases Instruction.mapKey_eq_closeTag hj
    have htag := htidy _ List.mem_cons_self
    rw [List.isChain_cons] at hapart
    obtain ⟨below, hbelow, rfl⟩ := ihb htag.branches.1 htag.branches.2 hbody
    obtain ⟨forest, hdenotes, rfl⟩ := ih (fun r hr => htidy r (List.mem_cons_of_mem _ hr))
      hapart.2 hrest
    refine ⟨_, .element name key attributes hbelow hdenotes, ?_⟩
    rw [normalAll, Live.normal, Fragment.firstOfEach_eq_self htag.neat]

theorem isText_eq_false_of_mem_elements {r : Rose Fragment.Kind} (hr : r ∈ source.elements) :
    r.label.isText = false := by
  simpa using (List.mem_filter.mp hr).2

theorem tidy_elements (source : Source) :
    (∀ r ∈ source.elements, Tidy r) ∧ source.elements.IsChain Apart := by
  refine ⟨fun r hr => (Fragment.tidy_content_ofTokens _).1 r (List.mem_of_mem_filter hr), ?_⟩
  refine List.Pairwise.isChain (List.pairwise_of_forall_mem_list fun r hr s _ => .inl ?_)
  exact isText_eq_false_of_mem_elements hr

end Patch

namespace Live.Tree

open Patch (Config Source compile)

variable {t : Tree} {p : Patch} {config : Config} {source : Source}

/-- The markup of the root is read as its content in its normal form. -/
theorem content_ofMarkup_root (h : Reachable t) :
    (Fragment.ofMarkup (t.outerMarkup .root)).content = normalAll (t.content .root) := by
  have hread := readAs_writtenAll (t.outerContent .root) (writable_outerContent h (.inl rfl))
  rw [← toList_outerMarkup h.wellLinked (.inl rfl)] at hread
  rw [hread.content_ofMarkup, ← normalAll_eq_foldr, outerContent, if_pos rfl]

theorem failure_apply_new (hcompile : compile config source = .ok p) :
    (p.apply .root Tree.new).failure = none :=
  failure_apply_of_accepted Reachable.new rfl (plain_kindOf wellLinked_new (.inl rfl))
    (Patch.accepted_compile hcompile)

/-- The elements that are read in what a compiled program leaves are those that it was
compiled from. -/
theorem elements_outerMarkup (hconfig : config.opaqueAttribute = none)
    (hcompile : compile config source = .ok p) :
    (Source.markup ((p.apply .root Tree.new).state.outerMarkup .root)).elements =
      source.elements := by
  obtain ⟨program, hspells⟩ := Patch.exists_spells_of_compile hconfig hcompile
  obtain ⟨htidy, hapart⟩ := Patch.tidy_elements source
  have hok := failure_apply_new hcompile
  rw [Patch.compile_of_spells hconfig hspells] at hcompile
  obtain ⟨instructions, hchoice, rfl⟩ := Patch.map_eq_ok hcompile
  obtain ⟨forest, hforest, hnormal⟩ :=
    hspells.exists_denotes htidy hapart (Patch.map_mapKey_of_chooseKeys hchoice)
  -- A program denotes one forest only, so this is the one that the tree holds.
  have hcontent := denotes_content Reachable.new hforest.isSkip_eq_false hok
  rw [Source.elements, Source.toMarkup, Patch.elements,
    content_ofMarkup_root (Reachable.new.apply _ _), ← hforest.unique hcontent, hnormal,
    List.filter_eq_self.mpr]
  intro r hr
  simpa using Patch.isText_eq_false_of_mem_elements hr

/-- What a compiled program without opaque elements leaves in an empty tree is written as
markup that compiles to the same program, keys included. With other drawn numbers the
program is the same up to the values of the chosen keys, or there are fewer different
numbers than elements. -/
theorem compile_outerMarkup (hconfig : config.opaqueAttribute = none)
    (hcompile : compile config source = .ok p) :
    let again : Source := .markup ((p.apply .root Tree.new).state.outerMarkup .root)
    (p.apply .root Tree.new).failure = none ∧ compile config again = .ok p ∧
      ∀ draws, (∃ q, compile { config with keys := .drawn draws } again = .ok q ∧
          q.masked = p.masked) ∨
        (compile { config with keys := .drawn draws } again = .error .outOfDraws ∧
          draws.dedup.length < p.keys.length) := by
  intro again
  obtain ⟨program, hspells⟩ := Patch.exists_spells_of_compile hconfig hcompile
  have hagain : Patch.Spells config.idAttribute again.elements program :=
    (elements_outerMarkup hconfig hcompile).symm ▸ hspells
  have hok := failure_apply_new hcompile
  rw [Patch.compile_of_spells hconfig hspells] at hcompile
  obtain ⟨instructions, hchoice, rfl⟩ := Patch.map_eq_ok hcompile
  refine ⟨hok, ?_, fun draws => ?_⟩
  · rw [Patch.compile_of_spells hconfig hagain,
      Patch.chooseKeys_resize hchoice hagain.countP_isOpen_le_size]
    rfl
  · have hchooses := Patch.chooses_of_chooseKeys hchoice
    have hdrawn : compile { config with keys := .drawn draws } again = _ :=
      Patch.compile_of_spells hconfig hagain
    rw [hdrawn, hchooses.length_keys, hchooses.masked_eq]
    rcases Patch.chooseKeys_drawn draws (Fragment.ofMarkup again.toMarkup).size program with
      ⟨q, hq⟩ | ⟨hout, hfew⟩
    · exact .inl ⟨⟨q⟩, by rw [hq]; rfl, (Patch.chooses_of_chooseKeys hq).masked_eq⟩
    · exact .inr ⟨by rw [hout]; rfl, hfew⟩

/-- Messy markup: text at the root, an attribute given twice, an element that is closed by
itself, an end tag without a start tag, an element that is never closed, a text in two pieces
and a raw text that the end of the input cuts off. -/
theorem compile_outerMarkup_messy :
    let config : Config := ⟨"id", .numbered "k", none⟩
    let source : Source :=
      .markup "top<P id=k2 id=b x='\"'>one &lt;<br/>two</q>three<i/><b></p><script>a<b"
    let p : Patch := ⟨[.openTag "p" (.explicit "k2") [("id", "k2"), ("x", "\"")],
      .text "one <", .openTag "br" (.generated "k1") [], .closeTag "br", .text "twothree",
      .openTag "i" (.generated "k3") [], .closeTag "i", .openTag "b" (.generated "k4") [],
      .closeTag "b", .closeTag "p", .openTag "script" (.generated "k5") [], .text "a<b",
      .closeTag "script"]⟩
    compile config source = .ok p ∧
      compile config (.markup ((p.apply .root Tree.new).state.outerMarkup .root)) = .ok p := by
  intro config source p
  have hcompile : compile config source = .ok p := by decide +kernel
  exact ⟨hcompile, (compile_outerMarkup rfl hcompile).2.1⟩

end Live.Tree

end LiveMarkup
