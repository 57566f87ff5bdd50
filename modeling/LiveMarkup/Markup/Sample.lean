/-!
# Sample markup

Text of any size for measurements, made by repeating one block. A block holds a comment
only on request, since fragments with comments do not compile.
-/

namespace LiveMarkup.Markup

/-- One block of sample markup on a line of its own. -/
def sampleBlock (withComment : Bool) : String :=
  "<div class=box><span id=label>hello &amp; welcome</span><img src=x>" ++
    (if withComment then "<!--c-->" else "") ++ "</div>\n"

/-- As many blocks as asked for. -/
def sample (blocks : Nat) (withComments : Bool) : String :=
  String.join (List.replicate blocks (sampleBlock withComments))

end LiveMarkup.Markup
