/-
The command that shows the models.
-/
import Parley.Model
import Parley.Text.Layout

namespace Parley.Command

/-- A line of the table of models. -/
def modelLine (name component id required : String) : String :=
  Text.column 12 name ++ " " ++ Text.column 20 component ++ " " ++ Text.column 18 id ++ " "
    ++ required

/-- The table of all models. -/
def modelTable : String :=
  Text.unlines (modelLine "model" "component" "model id" "requires"
    :: Model.catalogue.map fun m =>
      modelLine m.name m.componentType m.modelId
        (String.intercalate ", " (m.required.map Model.Attribute.name)))

end Parley.Command
