import MarkdownTree.Proofs.Printing
import MarkdownTree.Proofs.Spelling

/-!
# Printing inline nodes

What the printer makes of one inline node in a scene: the text, and the pen after it.
-/

namespace MarkdownTree.Print

open Text

theorem run_bind {α β : Type} {x : Printing (Except Fault) α} {f : α → Printing (Except Fault) β} {pen : Pen} (a : α)
    (pen' : Pen) (hx : x pen = .ok (a, pen')) : (x >>= f) pen = f a pen' := by
  show (x pen >>= fun p => f p.1 p.2) = _
  rw [hx]
  rfl

variable (o : PrintOptions)

/-- The delimiter that emphasis is printed with where nothing speaks against it. -/
def preferred (content : Content) : Delimiter :=
  if content.kind = .strong then o.strong else o.emphasis

variable {s : Scene} {place : Option Place} {children : List Draft} {id : Option Nat} {pen pen' : Pen} {x : List Char}

theorem run_text {value : String}
    (h : textText pen.around.atLineStart pen.atx (pen.around.next == some .link) (.text value) = .ok x) :
    (Printer.standard o).render s (.node .text (Content.text value).fields place children id) pen = .ok (x, pen) := by
  rw [Printer.render]
  refine (run_bind () pen rfl).trans ((run_bind pen pen rfl).trans ?_)
  show Printer.lift (textText _ _ _ (.text value)) pen = _
  rw [h]
  rfl

theorem run_emphasis {content : Content} {width : Nat} (hwidth : content.width? = some width) {d : Delimiter}
    (hd : (Printer.delimiterFor s (preferred o content) : Printing (Except Fault) Delimiter) pen = .ok (d, pen))
    (hinner : (Printer.standard o).renderInlines (s.past 1) (some d) (some d.char) (.char d.char) true children none pen =
      .ok (x, pen')) :
    (Printer.standard o).render s (.node content.kind content.fields place children id) pen =
      .ok (List.replicate width d.char ++ (x ++ List.replicate width d.char), pen') := by
  rcases Content.width_cases hwidth with ⟨rfl, rfl⟩ | ⟨rfl, rfl⟩
  · rw [show Content.emphasis.kind = .emphasis from rfl, Printer.render]
    exact (run_bind () pen rfl).trans ((run_bind d pen hd).trans (run_bind x pen' hinner))
  · rw [show Content.strong.kind = .strong from rfl, Printer.render]
    exact (run_bind () pen rfl).trans ((run_bind d pen hd).trans (run_bind x pen' hinner))

theorem run_inlineCode (value : String) :
    (Printer.standard o).render s (.node .inlineCode (Content.inlineCode value).fields place children id) pen =
      .ok (codeSpanText value.toList, pen) := by
  rw [Printer.render]
  exact run_bind () pen rfl

theorem run_link {destination : String} {title : Option String} {tail : List Char}
    (hinner : (Printer.standard o).renderInlines s none (some '[') (.char ']') true children none pen = .ok (x, pen'))
    (htail : linkTail (.text destination) (.ofText? title) = .ok tail) :
    (Printer.standard o).render s (.node .link (Content.link destination title).fields place children id) pen =
      .ok ('[' :: x ++ ']' :: tail, pen') := by
  rw [Printer.render]
  refine (run_bind () pen rfl).trans ((run_bind x pen' hinner).trans (run_bind tail pen' ?_))
  show Printer.lift (linkTail (.text destination) (.ofText? title)) pen' = _
  rw [htail]
  rfl

theorem run_image {destination alt : String} {title : Option String}
    (h : imageText (.text alt) (.text destination) (.ofText? title) = .ok x) :
    (Printer.standard o).render s (.node .image (Content.image destination alt title).fields place children id) pen =
      .ok (x, pen) := by
  rw [Printer.render]
  refine (run_bind () pen rfl).trans ?_
  show Printer.lift (imageText (.text alt) (.text destination) (.ofText? title)) pen = _
  rw [h]
  rfl

theorem run_lineBreak :
    (Printer.standard o).render s (.node .lineBreak Content.lineBreak.fields place children id) pen =
      .ok (if pen.atx then [' '] else ['\\', '\n'], pen) := by
  rw [Printer.render]
  exact run_bind () pen rfl

end MarkdownTree.Print
