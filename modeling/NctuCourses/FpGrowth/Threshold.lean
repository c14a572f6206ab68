import Mathlib.Data.Rat.Floor
import NctuCourses.FpGrowth.Mine

namespace NctuCourses.FpGrowth

open NctuCourses.Lib

namespace FPgrowth

end FPgrowth

end NctuCourses.FpGrowth
